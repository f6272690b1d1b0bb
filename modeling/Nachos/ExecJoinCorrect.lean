import Nachos.ExecJoin

/-! Join against Exit over every schedule. `Threads` and `Joins` hold in every run; `Served`
holds in the runs whose steps are timely, where no Join is stored over another, for a program
that has ended, or for one that ends without calling Exit. -/
namespace Nachos.ExecJoin

theorem notify_entries (self : ℤ) (sems : ℕ → Semaphore ℕ) (es : List ArchivosEjec) :
    (State.notify self sems es).2 =
      es.map fun e => if e.hilo = self then { e with sem := none } else e := by
  induction es generalizing sems with
  | nil => rfl
  | cons e es ih =>
    have he : (State.notifyEntry self sems e).2 =
        if e.hilo = self then { e with sem := none } else e := by
      unfold State.notifyEntry
      split_ifs
      · cases hs : e.sem <;> simp [← hs]
      · rfl
    simp [State.notify, ih, he]

/-- The loop of `Nachos_Exit` does one `V` for each entry of the thread that names `k`. -/
theorem notify_semaphore (self : ℤ) (sems : ℕ → Semaphore ℕ) (es : List ArchivosEjec) (k : ℕ) :
    (State.notify self sems es).1 k =
      Semaphore.v^[es.countP fun e => e.hilo = self ∧ e.sem = some k] (sems k) := by
  induction es generalizing sems with
  | nil => rfl
  | cons e es ih =>
    simp only [State.notify, ih, List.countP_cons]
    unfold State.notifyEntry
    split_ifs with h hk hk
    · simp only [decide_eq_true_eq] at hk
      simp [hk.2]
    · split
      · rename_i k' hs
        have hne : k ≠ k' := by
          rintro rfl
          simp [h, hs] at hk
        simp [hne]
      · rfl
    · simp [h] at hk
    · rfl

/-- Live threads have their own addresses, and a thread not yet started has one parent. -/
structure Threads (s : State) : Prop where
  absent_iff : ∀ t, s.pc t = .absent ↔ s.threads ≤ t
  address_inj : ∀ t u, s.live t → s.live u → s.address t = s.address u → t = u
  child : ∀ t c, (s.pc t).child? = some c → s.pc c = .created
  parent : ∀ t u c, (s.pc t).child? = some c → (s.pc u).child? = some c → t = u

/-- Each semaphore belongs to one Join and is raised only when its program ends. -/
structure Joins (s : State) : Prop where
  entry : ∀ e ∈ s.ejecutables, e.hilo = s.address e.thread ∧ e.thread < s.threads
  target : ∀ t id, s.pc t = .joinNew id → id < s.ejecutables.length
  join : ∀ t id k, (s.pc t).join? = some (id, k) →
    id < s.ejecutables.length ∧ k < s.semaphoreCount
  join_inj : ∀ t u id id' k, (s.pc t).join? = some (id, k) → (s.pc u).join? = some (id', k) → t = u
  sem : ∀ (j : ℕ) e k, s.ejecutables[j]? = some e → e.sem = some k →
    k < s.semaphoreCount ∧ ∀ t id, (s.pc t).join? = some (id, k) → id = j
  value_ne : ∀ t id k, (s.pc t).join? = some (id, k) → (s.semaphores k).value ≠ 0 → s.ended id
  returned : ∀ t id, s.pc t = .joinReturn id → s.ended id
  joined : ∀ id ∈ s.joined, s.ended id

variable {s s' : State} {t : ℕ}

namespace Threads

theorem goto (hi : Threads s) {p : Pc} (hpc : s'.pc = Function.update s.pc t p)
    (haddress : s'.address = s.address) (hthreads : s'.threads = s.threads) (hlive : s.live t)
    (hcreated : s.pc t = .created → ∀ u, (s.pc u).child? ≠ some t) (hp : p ≠ .absent)
    (hchild : ∀ c, p.child? = some c → (s.pc t).child? = some c ∨
      c ≠ t ∧ s.pc c = .created ∧ ∀ u, (s.pc u).child? ≠ some c) : Threads s' := by
  have hself : s'.pc t = p := by rw [hpc, Function.update_self]
  have hother : ∀ u, u ≠ t → s'.pc u = s.pc u := fun u hu => by rw [hpc, Function.update_of_ne hu]
  have hlive' : ∀ u, s'.live u → s.live u := by
    intro u hu
    by_cases heq : u = t
    · exact heq ▸ hlive
    · unfold State.live at hu ⊢
      rwa [hother u heq] at hu
  have hold : ∀ u c, (s'.pc u).child? = some c → (s.pc u).child? = some c ∨
      u = t ∧ c ≠ t ∧ s.pc c = .created ∧ ∀ v, (s.pc v).child? ≠ some c := by
    intro u c hc
    by_cases heq : u = t
    · rw [heq, hself] at hc
      obtain hc | hc := hchild c hc
      · exact .inl (heq ▸ hc)
      · exact .inr ⟨heq, hc⟩
    · exact .inl (by rwa [hother u heq] at hc)
  constructor
  case absent_iff =>
    intro u
    rw [hthreads, ← hi.absent_iff]
    by_cases heq : u = t
    · rw [heq, hself]
      exact iff_of_false hp hlive.1
    · rw [hother u heq]
  case address_inj =>
    intro u v hu hv heq
    rw [haddress] at heq
    exact hi.address_inj u v (hlive' u hu) (hlive' v hv) heq
  case child =>
    intro u c hc
    obtain hc | ⟨-, hne, hcr, -⟩ := hold u c hc
    · have hcr := hi.child u c hc
      rwa [hother c fun heq => hcreated (heq ▸ hcr) u (heq ▸ hc)]
    · rwa [hother c hne]
  case parent =>
    intro u v c hu hv
    obtain hu | ⟨rfl, -, -, hno⟩ := hold u c hu <;>
      obtain hv | ⟨rfl, -, -, hno'⟩ := hold v c hv
    · exact hi.parent u v c hu hv
    · exact absurd hu (hno' u)
    · exact absurd hv (hno v)
    · rfl

theorem newThread (hi : Threads s) {a : ℤ} (ha : ∀ u < s.threads, s.live u → s.address u ≠ a) :
    Threads { s with
      pc := Function.update s.pc s.threads .created
      address := Function.update s.address s.threads a
      threads := s.threads + 1 } := by
  have hnew : s.pc s.threads = .absent := (hi.absent_iff _).mpr le_rfl
  have hlt : ∀ u, s.live u → u < s.threads := fun u hu =>
    not_le.mp fun hle => hu.1 ((hi.absent_iff u).mpr hle)
  have hold : ∀ u c, (Function.update s.pc s.threads .created u).child? = some c →
      (s.pc u).child? = some c := by
    intro u c hc
    by_cases heq : u = s.threads
    · rw [heq, Function.update_self] at hc
      cases hc
    · rwa [Function.update_of_ne heq] at hc
  constructor
  case absent_iff =>
    intro u
    dsimp only
    by_cases heq : u = s.threads
    · rw [heq, Function.update_self]
      simp
    · rw [Function.update_of_ne heq, hi.absent_iff]
      omega
  case address_inj =>
    intro u v hu hv heq
    unfold State.live at hu hv
    dsimp only at hu hv heq
    by_cases hu' : u = s.threads <;> by_cases hv' : v = s.threads
    · rw [hu', hv']
    · rw [Function.update_of_ne hv'] at hv heq
      rw [hu', Function.update_self] at heq
      exact absurd heq.symm (ha v (hlt v hv) hv)
    · rw [Function.update_of_ne hu'] at hu heq
      rw [hv', Function.update_self] at heq
      exact absurd heq (ha u (hlt u hu) hu)
    · rw [Function.update_of_ne hu'] at hu heq
      rw [Function.update_of_ne hv'] at hv heq
      exact hi.address_inj u v hu hv heq
  case child =>
    intro u c hc
    have hcr := hi.child u c (hold u c hc)
    dsimp only
    rwa [Function.update_of_ne fun heq => by rw [heq, hnew] at hcr; cases hcr]
  case parent => exact fun u v c hu hv => hi.parent u v c (hold u c hu) (hold v c hv)

theorem newChild (hi : Threads s) {p : Pc} {a : ℤ}
    (ha : ∀ u < s.threads, s.live u → s.address u ≠ a)
    (h : (s.pc t = .execThread ∧ p = .execCount s.threads) ∨
      (s.pc t = .forkThread ∧ p = .forkFork s.threads)) :
    Threads ({ s with
      pc := Function.update s.pc s.threads .created
      address := Function.update s.address s.threads a
      threads := s.threads + 1 }.goto t p) := by
  have hnew : s.pc s.threads = .absent := (hi.absent_iff _).mpr le_rfl
  have hne : t ≠ s.threads := by
    rintro rfl
    simp [hnew] at h
  have hno : ∀ u, (s.pc u).child? ≠ some s.threads := fun u hu => by
    have := hi.child u _ hu
    rw [hnew] at this
    cases this
  have hold : Function.update s.pc s.threads .created t = s.pc t := Function.update_of_ne hne _ _
  have hparent : ∀ u, (Function.update s.pc s.threads .created u).child? ≠ some s.threads := by
    intro u
    by_cases heq : u = s.threads
    · rw [heq, Function.update_self]
      nofun
    · rw [Function.update_of_ne heq]
      exact hno u
  obtain ⟨h, rfl⟩ | ⟨h, rfl⟩ := h <;>
    refine (hi.newThread ha).goto rfl rfl rfl (by simp [State.live, hold, h])
      (by simp [hold, h]) (by simp) fun c hc => .inr ?_ <;>
    obtain rfl := Option.some.inj hc <;>
    exact ⟨hne.symm, Function.update_self .., hparent⟩

theorem fork (hi : Threads s) {child : ℕ} {q p : Pc}
    (h : (∃ id, s.pc t = .execFork child id ∧ q = .openExecutable id ∧ p = .execReturn) ∨
      (s.pc t = .forkFork child ∧ q = .user ∧ p = .user)) :
    Threads ((s.goto child q).goto t p) := by
  have hparent : (s.pc t).child? = some child := by
    obtain ⟨id, h, -, -⟩ | ⟨h, -, -⟩ := h <;> rw [h] <;> rfl
  have hcreated := hi.child t child hparent
  have hne : child ≠ t := by
    rintro rfl
    rw [hcreated] at hparent
    cases hparent
  have hcomm : (s.goto child q).goto t p = (s.goto t p).goto child q := by
    unfold State.goto
    rw [Function.update_comm hne]
  have hparent' : p.child? = none → ∀ u, (Function.update s.pc t p u).child? ≠ some child := by
    intro hp u hu
    by_cases heq : u = t
    · rw [heq, Function.update_self, hp] at hu
      cases hu
    · rw [Function.update_of_ne heq] at hu
      exact heq (hi.parent u t child hu hparent)
  have hold : (s.goto t p).pc child = .created := (Function.update_of_ne hne _ _).trans hcreated
  rw [hcomm]
  obtain ⟨id, h, rfl, rfl⟩ | ⟨h, rfl, rfl⟩ := h
  · have hreturn : Threads (s.goto t .execReturn) := hi.goto rfl rfl rfl
      (by simp [State.live, h]) (by simp [h]) (by simp) (by simp [Pc.child?])
    exact hreturn.goto rfl rfl rfl (by simp [State.live, hold]) (fun _ => hparent' rfl)
      (by simp) (by simp [Pc.child?])
  · have huser : Threads (s.goto t .user) := hi.goto rfl rfl rfl
      (by simp [State.live, h]) (by simp [h]) (by simp) (by simp [Pc.child?])
    exact huser.goto rfl rfl rfl (by simp [State.live, hold]) (fun _ => hparent' rfl)
      (by simp) (by simp [Pc.child?])

end Threads

theorem threads_step (hi : Threads s) (h : Move s t s') : Threads s' := by
  cases h with
  | newThread p a ha h => exact hi.newChild ha h
  | fork child q p h => exact hi.fork h
  | sleep id k h hq hv => exact ⟨hi.absent_iff, hi.address_inj, hi.child, hi.parent⟩
  | call p r2 h hp =>
    refine hi.goto rfl rfl rfl (by simp [State.live, h]) (by simp [h]) ?_ ?_ <;>
      obtain rfl | rfl | rfl | ⟨id, -, rfl⟩ := hp <;> simp [Pc.child?]
  | back p r2 h =>
    obtain ⟨h, rfl⟩ | ⟨id, h, rfl | rfl⟩ := h <;>
      exact hi.goto rfl rfl rfl (by simp [State.live, h]) (by simp [h]) (by simp)
        (by simp [Pc.child?])
  | count child h | push child h =>
    exact hi.goto rfl rfl rfl (by simp [State.live, h]) (by simp [h]) (by simp)
      (by simp [Pc.child?, h])
  | exit h | fail id h | joinNew id h | store id k h | storeThread id k h | wake id k h hq hv
  | joined id r2 h =>
    exact hi.goto rfl rfl rfl (by simp [State.live, h]) (by simp [h]) (by simp)
      (by simp [Pc.child?])

theorem terminated_step (hi : Threads s) (h : Move s t s') {u : ℕ} (hu : s.pc u = .terminated) :
    s'.pc u = .terminated := by
  have h1 := hi.absent_iff
  have h3 := hi.child
  cases h <;>
    simp only [State.goto, State.setEntry, State.exit, Function.update_apply] <;>
    grind [Pc.child?]

/-- The entries after a step: a new one from Exec, or an old one with its semaphore stored
by Join or taken out by Exit. -/
theorem entry_cases (h : Move s t s') {j : ℕ} {e' : ArchivosEjec}
    (he' : s'.ejecutables[j]? = some e') :
    (∃ e, s.ejecutables[j]? = some e ∧ e'.hilo = e.hilo ∧ e'.thread = e.thread ∧
      (e'.sem = none ∨ e'.sem = e.sem ∨ ∃ k, s.pc t = .joinStore j k ∧ e'.sem = some k)) ∨
    ∃ c, s.pc t = .execPush c ∧ s.ejecutables.length ≤ j ∧ e'.hilo = s.address c ∧
      e'.thread = c ∧ e'.sem = none := by
  cases h with
  | exit h =>
    simp only [State.exit, State.goto, notify_entries, List.getElem?_map,
      Option.map_eq_some_iff] at he'
    obtain ⟨e, he, rfl⟩ := he'
    refine .inl ⟨e, he, ?_⟩
    split_ifs <;> simp
  | push child h =>
    simp only [State.goto, List.getElem?_append] at he'
    split_ifs at he' with hj
    · exact .inl ⟨e', he', rfl, rfl, .inr (.inl rfl)⟩
    · rw [List.getElem?_singleton] at he'
      split_ifs at he'
      obtain rfl := Option.some.inj he'
      exact .inr ⟨child, h, Nat.le_of_not_lt hj, rfl, rfl, rfl⟩
  | store id k h =>
    simp only [State.goto, State.setEntry, List.getElem?_modify, Option.map_eq_map,
      Option.map_eq_some_iff] at he'
    obtain ⟨e, he, rfl⟩ := he'
    refine .inl ⟨e, he, ?_⟩
    split_ifs with hid
    · exact ⟨rfl, rfl, .inr (.inr ⟨k, hid ▸ h, rfl⟩)⟩
    · exact ⟨rfl, rfl, .inr (.inl rfl)⟩
  | storeThread id k h =>
    simp only [State.goto, State.setEntry, List.getElem?_modify, Option.map_eq_map,
      Option.map_eq_some_iff] at he'
    obtain ⟨e, he, rfl⟩ := he'
    refine .inl ⟨e, he, ?_⟩
    split_ifs <;> simp
  | _ => exact .inl ⟨e', he', rfl, rfl, .inr (.inl rfl)⟩

theorem length_step (h : Move s t s') : s.ejecutables.length ≤ s'.ejecutables.length := by
  cases h <;> simp [State.goto, State.exit, State.setEntry, notify_entries]

theorem entry_step (h : Move s t s') {id : ℕ} {e : ArchivosEjec}
    (he : s.ejecutables[id]? = some e) :
    ∃ e', s'.ejecutables[id]? = some e' ∧ e'.thread = e.thread := by
  have hlt := (List.getElem?_eq_some_iff.mp he).1.trans_le (length_step h)
  refine ⟨_, List.getElem?_eq_getElem hlt, ?_⟩
  obtain ⟨e₀, he₀, -, ht, -⟩ | ⟨c, -, hle, -⟩ := entry_cases h (List.getElem?_eq_getElem hlt)
  · rw [he] at he₀
    rw [ht, Option.some.inj he₀]
  · exact absurd (List.getElem?_eq_some_iff.mp he).1 (Nat.not_lt.mpr hle)

theorem ended_step (hi : Threads s) (h : Move s t s') {id : ℕ} (he : s.ended id) : s'.ended id := by
  obtain ⟨e, he, hp⟩ := he
  obtain ⟨e', he', ht⟩ := entry_step h he
  exact ⟨e', he', by rw [ht]; exact terminated_step hi h hp⟩

theorem join_cases (h : Move s t s') {u id k : ℕ} (hj : (s'.pc u).join? = some (id, k)) :
    (s.pc u).join? = some (id, k) ∨
      (u = t ∧ s.pc t = .joinNew id ∧ k = s.semaphoreCount ∧
        s'.semaphoreCount = s.semaphoreCount + 1 ∧ s'.semaphores k = ⟨0, []⟩) := by
  cases h <;> simp only [State.goto, State.setEntry, State.exit, Function.update_apply] at hj ⊢ <;>
    grind [Pc.join?]

theorem target_cases (h : Move s t s') {u id : ℕ} (hj : s'.pc u = .joinNew id) :
    s.pc u = .joinNew id ∨ id < s.ejecutables.length := by
  cases h <;> simp only [State.goto, State.setEntry, State.exit, Function.update_apply] at hj <;>
    grind

theorem return_cases (h : Move s t s') {u id : ℕ} (hj : s'.pc u = .joinReturn id) :
    s.pc u = .joinReturn id ∨
      ∃ k, (s.pc u).join? = some (id, k) ∧ (s.semaphores k).value ≠ 0 := by
  cases h <;> simp only [State.goto, State.setEntry, State.exit, Function.update_apply] at hj <;>
    grind [Pc.join?]

theorem joined_cases (h : Move s t s') {id : ℕ} (hj : id ∈ s'.joined) :
    id ∈ s.joined ∨ s.pc t = .joinReturn id := by
  cases h with
  | joined id' r2 h =>
    obtain hj | hj := List.mem_append.mp hj
    · exact .inl hj
    · exact .inr (List.mem_singleton.mp hj ▸ h)
  | _ => exact .inl hj

theorem semaphoreCount_step (h : Move s t s') : s.semaphoreCount ≤ s'.semaphoreCount := by
  cases h <;> simp [State.goto, State.exit, State.setEntry]

theorem address_step (h : Move s t s') {u : ℕ} (hu : u < s.threads) :
    s'.address u = s.address u ∧ u < s'.threads := by
  cases h with
  | newThread p a ha h =>
    exact ⟨Function.update_of_ne hu.ne _ _, hu.trans (Nat.lt_succ_self _)⟩
  | _ => exact ⟨rfl, hu⟩

theorem v_iterate_value (sem : Semaphore ℕ) (n : ℕ) :
    (Semaphore.v^[n] sem).value = sem.value + n := by
  induction n generalizing sem with
  | zero => simp
  | succ n ih =>
    rw [Function.iterate_succ_apply, ih, Semaphore.v_value]
    push_cast
    ring

theorem value_cases (h : Move s t s') {k : ℕ} (hk : k < s.semaphoreCount)
    (hv : (s'.semaphores k).value ≠ 0) :
    (s.semaphores k).value ≠ 0 ∨
      (s.pc t = .user ∧ s'.pc t = .terminated ∧
        ∃ e ∈ s.ejecutables, e.hilo = s.address t ∧ e.sem = some k) := by
  cases h with
  | exit h =>
    by_contra hc
    obtain ⟨hc₁, hc₂⟩ := not_or.mp hc
    simp only [State.exit, State.goto, notify_semaphore] at hv hc₂
    rw [List.countP_eq_zero.mpr] at hv
    · exact hc₁ hv
    · intro e he hek
      simp only [decide_eq_true_eq] at hek
      exact hc₂ ⟨h, Function.update_self _ _ _, e, he, hek⟩
  | joinNew id h =>
    simp only [State.goto, Function.update_of_ne hk.ne] at hv
    exact .inl hv
  | sleep id k' h hq hv' | wake id k' h hq hv' =>
    by_cases hkk : k = k'
    · subst hkk
      simp_all
    · simp only [State.goto, Function.update_of_ne hkk] at hv
      exact .inl hv
  | _ => exact .inl hv

theorem Threads.child_lt (hi : Threads s) {c : ℕ} (h : (s.pc t).child? = some c) :
    c < s.threads := by
  by_contra hc
  have ha := (hi.absent_iff c).mpr (Nat.le_of_not_lt hc)
  rw [hi.child t c h] at ha
  cases ha

theorem ended_of_exit (ht : Threads s) (hi : Joins s) (h : Move s t s') {e : ArchivosEjec} {j : ℕ}
    (hu : s.pc t = .user) (hu' : s'.pc t = .terminated) (he : s.ejecutables[j]? = some e)
    (hh : e.hilo = s.address t) : s'.ended j := by
  obtain ⟨e', he', hth⟩ := entry_step h he
  refine ⟨e', he', ?_⟩
  rw [hth]
  obtain ⟨hadr, hlt⟩ := hi.entry e (List.mem_of_getElem? he)
  by_cases hend : s.pc e.thread = .terminated
  · exact terminated_step ht h hend
  · have hlive : s.live e.thread :=
      ⟨fun ha => Nat.not_le.mpr hlt ((ht.absent_iff _).mp ha), hend⟩
    have hself : s.live t := by simp [State.live, hu]
    rw [ht.address_inj e.thread t hlive hself (by rw [← hadr, hh])]
    exact hu'

theorem joins_step (ht : Threads s) (hi : Joins s) (h : Move s t s') : Joins s' := by
  have hmono : ∀ id, s.ended id → s'.ended id := fun id => ended_step ht h
  have hnew : ∀ {u id k}, (s.pc u).join? = some (id, k) → k ≠ s.semaphoreCount :=
    fun hu => (hi.join _ _ _ hu).2.ne
  refine ⟨fun e' he' => ?_, fun u id hu => ?_, fun u id k hu => ?_,
    fun u v id id' k hu hv => ?_, fun j e' k he' hk => ?_, fun u id k hu hv => ?_,
    fun u id hu => ?_, fun id hid => ?_⟩
  · obtain ⟨j, hj⟩ := List.mem_iff_getElem?.mp he'
    obtain ⟨e, he, hh, hth, -⟩ | ⟨c, hc, -, hh, hth, -⟩ := entry_cases h hj
    · obtain ⟨hadr, hlt⟩ := hi.entry e (List.mem_of_getElem? he)
      obtain ⟨ha, hlt'⟩ := address_step h hlt
      rw [hh, hth, ha]
      exact ⟨hadr, hlt'⟩
    · obtain ⟨ha, hlt'⟩ := address_step h (ht.child_lt (t := t) (c := c) (by rw [hc]; rfl))
      rw [hh, hth, ha]
      exact ⟨rfl, hlt'⟩
  · obtain hu | hid := target_cases h hu
    · exact (hi.target u id hu).trans_le (length_step h)
    · exact hid.trans_le (length_step h)
  · obtain hu | ⟨-, hpc, hk, hc, -⟩ := join_cases h hu
    · obtain ⟨hid, hk⟩ := hi.join u id k hu
      exact ⟨hid.trans_le (length_step h), hk.trans_le (semaphoreCount_step h)⟩
    · exact ⟨(hi.target t id hpc).trans_le (length_step h), by omega⟩
  · obtain hu | ⟨hut, -, hk, -⟩ := join_cases h hu <;>
      obtain hv | ⟨hvt, -, hk', -⟩ := join_cases h hv
    · exact hi.join_inj u v id id' k hu hv
    · exact absurd hk' (hnew hu)
    · exact absurd hk (hnew hv)
    · rw [hut, hvt]
  · obtain ⟨e, he, -, -, hs | hs | ⟨k', hpc, hs⟩⟩ | ⟨c, -, -, -, -, hs⟩ := entry_cases h he'
    · rw [hs] at hk
      cases hk
    · rw [hs] at hk
      obtain ⟨hlt, huniq⟩ := hi.sem j e k he hk
      refine ⟨hlt.trans_le (semaphoreCount_step h), fun u id hu => ?_⟩
      obtain hu | ⟨-, -, hk', -⟩ := join_cases h hu
      · exact huniq u id hu
      · exact absurd hk' hlt.ne
    · rw [hs, Option.some.injEq] at hk
      subst hk
      have hj : (s.pc t).join? = some (j, k') := by rw [hpc]; rfl
      refine ⟨(hi.join t j k' hj).2.trans_le (semaphoreCount_step h), fun u id hu => ?_⟩
      obtain hu | ⟨-, -, hk', -⟩ := join_cases h hu
      · obtain rfl := hi.join_inj u t id j k' hu hj
        rw [hu, Option.some.injEq, Prod.mk.injEq] at hj
        exact hj.1
      · exact absurd hk' (hnew hj)
    · rw [hs] at hk
      cases hk
  · obtain hu | ⟨-, -, -, -, hz⟩ := join_cases h hu
    · obtain hv | ⟨hpc, hpc', e, he, hh, hs⟩ := value_cases h (hi.join u id k hu).2 hv
      · exact hmono id (hi.value_ne u id k hu hv)
      · obtain ⟨j, hj⟩ := List.mem_iff_getElem?.mp he
        rw [(hi.sem j e k hj hs).2 u id hu]
        exact ended_of_exit ht hi h hpc hpc' hj hh
    · rw [hz] at hv
      exact absurd rfl hv
  · obtain hu | ⟨k, hu, hv⟩ := return_cases h hu
    · exact hmono id (hi.returned u id hu)
    · exact hmono id (hi.value_ne u id k hu hv)
  · obtain hid | hpc := joined_cases h hid
    · exact hmono id (hi.joined id hid)
    · exact hmono id (hi.returned t id hpc)

/-- The next step of `t` is not one of those that go wrong: a Join of a program that has ended
or that another thread is joining, and the end of a joined program that could not be opened. -/
def State.timely (s : State) (t : ℕ) : Bool :=
  match s.pc t with
  | .joinStore id _ =>
    s.ejecutables[id]?.any fun e => decide (s.pc e.thread ≠ .terminated ∧ e.sem = none)
  | .openFailed _ => s.ejecutables.all fun e => decide (e.thread = t → e.sem = none)
  | _ => true

/-- A Join that waits is stored in the entry of a program that has not ended. -/
structure Served (s : State) : Prop where
  nonneg : ∀ k < s.semaphoreCount, 0 ≤ (s.semaphores k).value
  awaited : ∀ e ∈ s.ejecutables, ∀ k, e.sem = some k → s.pc e.thread ≠ .terminated
  waiting : ∀ t id k, s.pc t = .joinStoreThread id k ∨ s.pc t = .joinWait id k →
    (s.semaphores k).value = 0 → ∃ e, s.ejecutables[id]? = some e ∧ e.sem = some k
  queue : ∀ t id k, (s.pc t).join? = some (id, k) →
    (s.semaphores k).queue = [] ∨ ((s.semaphores k).value = 0 ∧ (s.semaphores k).queue = [t])

theorem v_iterate_queue (sem : Semaphore ℕ) (n : ℕ) :
    (Semaphore.v^[n] sem).queue = sem.queue.drop n := by
  induction n generalizing sem with
  | zero => simp
  | succ n ih =>
    rw [Function.iterate_succ_apply, ih, Semaphore.v_queue, List.drop_tail]

theorem served_exit (hj : Joins s) (hi : Served s) (h : s.pc t = .user) : Served (s.exit t) := by
  obtain ⟨hn, ha, hw, hq⟩ := hi
  have hsem : ∀ k, (s.exit t).semaphores k = Semaphore.v^[s.ejecutables.countP fun e =>
      e.hilo = s.address t ∧ e.sem = some k] (s.semaphores k) := fun k => notify_semaphore _ _ _ k
  have hent : (s.exit t).ejecutables = s.ejecutables.map fun e =>
      if e.hilo = s.address t then { e with sem := none } else e := notify_entries _ _ _
  have hpc : ∀ u, u ≠ t → (s.exit t).pc u = s.pc u := fun u hu => Function.update_of_ne hu _ _
  have hpct : (s.exit t).pc t = .terminated := Function.update_self _ _ _
  refine ⟨fun k hk => ?_, fun e' he' k hk => ?_, fun u id k hu hv => ?_, fun u id k hu => ?_⟩
  · rw [hsem, v_iterate_value]
    have := hn k hk
    omega
  · rw [hent] at he'
    obtain ⟨e, he, rfl⟩ := List.mem_map.mp he'
    split_ifs at hk ⊢ with hh
    have hne : e.thread ≠ t := by
      rintro rfl
      exact hh (hj.entry e he).1
    rw [hpc _ hne]
    exact ha e he k hk
  · have hne : u ≠ t := by
      rintro rfl
      simp [hpct] at hu
    rw [hpc _ hne] at hu
    rw [hsem, v_iterate_value] at hv
    have hlt : k < s.semaphoreCount := by
      refine (hj.join u id k ?_).2
      obtain hu | hu := hu <;> rw [hu] <;> rfl
    have hpos := hn k hlt
    obtain ⟨e, he, hek⟩ := hw u id k hu (by omega)
    refine ⟨e, ?_, hek⟩
    have hcount : (s.ejecutables.countP fun e => e.hilo = s.address t ∧ e.sem = some k) = 0 := by
      omega
    have hh := List.countP_eq_zero.mp hcount e (List.mem_of_getElem? he)
    simp only [hek, and_true, decide_eq_true_eq] at hh
    simp [hent, he, hh]
  · have hne : u ≠ t := by
      rintro rfl
      simp [hpct, Pc.join?] at hu
    rw [hpc _ hne] at hu
    rw [hsem, v_iterate_value, v_iterate_queue]
    generalize (s.ejecutables.countP fun e => e.hilo = s.address t ∧ e.sem = some k) = n
    obtain hq | ⟨hv, hq⟩ := hq u id k hu
    · exact .inl (by rw [hq, List.drop_nil])
    · cases n with
      | zero => exact .inr ⟨by simpa using hv, hq⟩
      | succ n => exact .inl (by rw [hq]; simp)

theorem Served.of_same (hi : Served s) (hsem : s'.semaphores = s.semaphores)
    (hcount : s'.semaphoreCount = s.semaphoreCount)
    (hback : ∀ e' ∈ s'.ejecutables, ∀ k, e'.sem = some k →
      ∃ e ∈ s.ejecutables, e.sem = some k ∧ e.thread = e'.thread)
    (hfwd : ∀ (id : ℕ) e k, s.ejecutables[id]? = some e → e.sem = some k →
      ∃ e', s'.ejecutables[id]? = some e' ∧ e'.sem = some k)
    (hend : ∀ e ∈ s.ejecutables, e.sem ≠ none → s'.pc e.thread = .terminated →
      s.pc e.thread = .terminated)
    (hjoin : ∀ u id k, (s'.pc u).join? = some (id, k) → (s.pc u).join? = some (id, k))
    (hwait : ∀ u id k, s'.pc u = .joinStoreThread id k ∨ s'.pc u = .joinWait id k →
      s.pc u = .joinStoreThread id k ∨ s.pc u = .joinWait id k) : Served s' := by
  refine ⟨fun k hk => ?_, fun e' he' k hk hp => ?_, fun u id k hu hv => ?_, fun u id k hu => ?_⟩
  · rw [hsem]
    exact hi.nonneg k (hcount ▸ hk)
  · obtain ⟨e, he, hek, hth⟩ := hback e' he' k hk
    rw [← hth] at hp
    exact hi.awaited e he k hek (hend e he (by rw [hek]; simp) hp)
  · rw [hsem] at hv
    obtain ⟨e, he, hek⟩ := hi.waiting u id k (hwait u id k hu) hv
    exact hfwd id e k he hek
  · rw [hsem]
    exact hi.queue u id k (hjoin u id k hu)

theorem terminated_cases (h : Move s t s') {u : ℕ} (hu : s'.pc u = .terminated) :
    s.pc u = .terminated ∨ (u = t ∧ (s.pc t = .user ∨ ∃ id, s.pc t = .openFailed id)) := by
  cases h <;> simp only [State.goto, State.setEntry, State.exit, Function.update_apply] at hu <;>
    grind

theorem wait_cases (h : Move s t s') {u id k : ℕ}
    (hu : s'.pc u = .joinStoreThread id k ∨ s'.pc u = .joinWait id k) :
    (s.pc u = .joinStoreThread id k ∨ s.pc u = .joinWait id k) ∨
      (u = t ∧ s.pc t = .joinStore id k) := by
  cases h <;> simp only [State.goto, State.setEntry, State.exit, Function.update_apply] at hu <;>
    grind

theorem served_joinNew {id : ℕ} (hj : Joins s) (hi : Served s) (h : s.pc t = .joinNew id)
    (hm : Move s t ({ s with
      semaphores := Function.update s.semaphores s.semaphoreCount ⟨0, []⟩
      semaphoreCount := s.semaphoreCount + 1 }.goto t (.joinStore id s.semaphoreCount))) :
    Served ({ s with
      semaphores := Function.update s.semaphores s.semaphoreCount ⟨0, []⟩
      semaphoreCount := s.semaphoreCount + 1 }.goto t (.joinStore id s.semaphoreCount)) := by
  refine ⟨fun k hk => ?_, fun e he k hk hp => ?_, fun u id' k hu hv => ?_, fun u id' k hu => ?_⟩
  · simp only [State.goto, Function.update_apply] at hk ⊢
    split_ifs with hks
    · exact le_rfl
    · exact hi.nonneg k (by omega)
  · obtain hp | ⟨-, hp⟩ := terminated_cases hm hp
    · exact hi.awaited e he k hk hp
    · simp [h] at hp
  · obtain hu | ⟨-, hpc⟩ := wait_cases hm hu
    · have hlt : k < s.semaphoreCount := by
        refine (hj.join u id' k ?_).2
        obtain hu | hu := hu <;> rw [hu] <;> rfl
      simp only [State.goto, Function.update_of_ne hlt.ne] at hv
      exact hi.waiting u id' k hu hv
    · rw [h] at hpc
      cases hpc
  · obtain hu | ⟨-, -, hk, -⟩ := join_cases hm hu
    · simp only [State.goto, Function.update_of_ne (hj.join u id' k hu).2.ne]
      exact hi.queue u id' k hu
    · exact .inl (by simp [State.goto, hk])

theorem served_store {id k : ℕ} (hi : Served s) (h : s.pc t = .joinStore id k)
    (ht : s.timely t = true)
    (hm : Move s t ((s.setEntry id fun e => { e with sem := some k }).goto t
      (.joinStoreThread id k))) :
    Served ((s.setEntry id fun e => { e with sem := some k }).goto t (.joinStoreThread id k)) := by
  simp only [State.timely, h, Option.any_eq_true, decide_eq_true_eq] at ht
  obtain ⟨e₀, he₀, hlive, hnone⟩ := ht
  have hpc : ∀ u, ((s.setEntry id fun e => { e with sem := some k }).goto t
      (.joinStoreThread id k)).pc u = .terminated → s.pc u = .terminated := by
    intro u hu
    obtain hu | ⟨-, hu⟩ := terminated_cases hm hu
    · exact hu
    · simp [h] at hu
  refine ⟨hi.nonneg, fun e' he' k' hk' hp => ?_, fun u id' k' hu hv => ?_, fun u id' k' hu => ?_⟩
  · obtain ⟨j, hj'⟩ := List.mem_iff_getElem?.mp he'
    simp only [State.goto, State.setEntry, List.getElem?_modify, Option.map_eq_map,
      Option.map_eq_some_iff] at hj'
    obtain ⟨e, he, rfl⟩ := hj'
    replace hp := hpc _ hp
    split_ifs at hk' hp with hid
    · subst hid
      rw [he₀, Option.some.injEq] at he
      exact hlive (he ▸ hp)
    · exact hi.awaited e (List.mem_of_getElem? he) k' hk' hp
  · obtain hu | ⟨-, hu⟩ := wait_cases hm hu
    · obtain ⟨e, he, hek⟩ := hi.waiting u id' k' hu hv
      have hid : id ≠ id' := by
        rintro rfl
        rw [he₀, Option.some.injEq] at he
        rw [← he, hnone] at hek
        cases hek
      exact ⟨e, by simp [State.goto, State.setEntry, hid, he], hek⟩
    · rw [h, Pc.joinStore.injEq] at hu
      obtain ⟨rfl, rfl⟩ := hu
      exact ⟨{ e₀ with sem := some k }, by simp [State.goto, State.setEntry, he₀], rfl⟩
  · obtain hu | ⟨-, hu, -⟩ := join_cases hm hu
    · exact hi.queue u id' k' hu
    · rw [h] at hu
      cases hu

theorem served_sleep {id k : ℕ} (hj : Joins s) (hi : Served s) (h : s.pc t = .joinWait id k)
    (hq : t ∉ (s.semaphores k).queue) (hv : (s.semaphores k).value = 0) :
    Served { s with
      semaphores := Function.update s.semaphores k
        { s.semaphores k with queue := (s.semaphores k).queue ++ [t] } } := by
  have hval : ∀ k', (Function.update s.semaphores k
      { s.semaphores k with queue := (s.semaphores k).queue ++ [t] } k').value =
        (s.semaphores k').value := by
    intro k'
    by_cases hk : k' = k
    · rw [hk, Function.update_self]
    · rw [Function.update_of_ne hk]
  refine ⟨fun k' hk' => ?_, hi.awaited, fun u id' k' hu hv' => ?_, fun u id' k' hu => ?_⟩
  · simp only [hval]
    exact hi.nonneg k' hk'
  · simp only [hval] at hv'
    exact hi.waiting u id' k' hu hv'
  · simp only [hval]
    by_cases hk : k' = k
    · subst hk
      obtain rfl := hj.join_inj u t id' id k' hu (by rw [h]; rfl)
      obtain hq' | ⟨-, hq'⟩ := hi.queue u id' k' hu
      · exact .inr ⟨hv, by simp [hq']⟩
      · rw [hq'] at hq
        exact absurd List.mem_cons_self hq
    · simp only [Function.update_of_ne hk]
      exact hi.queue u id' k' hu

theorem served_wake {id k : ℕ} (hj : Joins s) (hi : Served s) (h : s.pc t = .joinWait id k)
    (hv : (s.semaphores k).value ≠ 0)
    (hm : Move s t ({ s with
      semaphores := Function.update s.semaphores k
        { s.semaphores k with value := (s.semaphores k).value - 1 } }.goto t (.joinReturn id))) :
    Served ({ s with
      semaphores := Function.update s.semaphores k
        { s.semaphores k with value := (s.semaphores k).value - 1 } }.goto t (.joinReturn id)) := by
  have hother : ∀ u id' k', (s.pc u).join? = some (id', k') → u ≠ t → k' ≠ k := by
    rintro u id' k' hu hut rfl
    exact hut (hj.join_inj u t id' id k' hu (by rw [h]; rfl))
  refine ⟨fun k' hk' => ?_, fun e he k' hk' hp => ?_, fun u id' k' hu hv' => ?_,
    fun u id' k' hu => ?_⟩
  · have hpos := hi.nonneg k' hk'
    by_cases hk : k' = k
    · subst hk
      simp only [State.goto, Function.update_self]
      omega
    · simp only [State.goto, Function.update_of_ne hk]
      exact hpos
  · obtain hp | ⟨-, hp⟩ := terminated_cases hm hp
    · exact hi.awaited e he k' hk' hp
    · simp [h] at hp
  · have hut : u ≠ t := by
      rintro rfl
      simp [State.goto] at hu
    simp only [State.goto, Function.update_of_ne hut] at hu
    have hk := hother u id' k' (by obtain hu | hu := hu <;> rw [hu] <;> rfl) hut
    simp only [State.goto, Function.update_of_ne hk] at hv'
    exact hi.waiting u id' k' hu hv'
  · have hut : u ≠ t := by
      rintro rfl
      simp [State.goto, Pc.join?] at hu
    simp only [State.goto, Function.update_of_ne hut] at hu
    simp only [State.goto, Function.update_of_ne (hother u id' k' hu hut)]
    exact hi.queue u id' k' hu

theorem served_step (hj : Joins s) (hi : Served s) (ht : s.timely t = true) (h : Move s t s') :
    Served s' := by
  have hjoin : (∀ id, s.pc t ≠ .joinNew id) → ∀ u id k, (s'.pc u).join? = some (id, k) →
      (s.pc u).join? = some (id, k) := by
    intro hne u id k hu
    obtain hu | ⟨-, hu, -⟩ := join_cases h hu
    · exact hu
    · exact absurd hu (hne id)
  have hwait : (∀ id k, s.pc t ≠ .joinStore id k) → ∀ u id k,
      s'.pc u = .joinStoreThread id k ∨ s'.pc u = .joinWait id k →
      s.pc u = .joinStoreThread id k ∨ s.pc u = .joinWait id k := by
    intro hne u id k hu
    obtain hu | ⟨-, hu⟩ := wait_cases h hu
    · exact hu
    · exact absurd hu (hne id k)
  have hend : s'.pc t ≠ .terminated → ∀ e ∈ s.ejecutables, e.sem ≠ none →
      s'.pc e.thread = .terminated → s.pc e.thread = .terminated := by
    intro hne e _ _ hp
    obtain hp' | ⟨hth, -⟩ := terminated_cases h hp
    · exact hp'
    · exact absurd (hth ▸ hp) hne
  have hsame : ∀ e ∈ s.ejecutables, ∀ k, e.sem = some k →
      ∃ e' ∈ s.ejecutables, e'.sem = some k ∧ e'.thread = e.thread :=
    fun e he k hk => ⟨e, he, hk, rfl⟩
  have hkeep : ∀ (id : ℕ) e k, s.ejecutables[id]? = some e → e.sem = some k →
      ∃ e', s.ejecutables[id]? = some e' ∧ e'.sem = some k :=
    fun id e k he hk => ⟨e, he, hk⟩
  cases h with
  | exit h => exact served_exit hj hi h
  | joinNew id h => exact served_joinNew hj hi h (.joinNew id h)
  | store id k h => exact served_store hi h ht (.store id k h)
  | sleep id k h hq hv => exact served_sleep hj hi h hq hv
  | wake id k h hq hv => exact served_wake hj hi h hv (.wake id k h hq hv)
  | call p r2 h hp =>
    refine hi.of_same rfl rfl hsame hkeep (hend ?_) (hjoin (by simp [h])) (hwait (by simp [h]))
    obtain rfl | rfl | rfl | ⟨id, -, rfl⟩ := hp <;> simp [State.goto]
  | newThread p a ha h =>
    obtain ⟨h, rfl⟩ | ⟨h, rfl⟩ := h
    all_goals
      exact hi.of_same rfl rfl hsame hkeep (hend (by simp [State.goto])) (hjoin (by simp [h]))
        (hwait (by simp [h]))
  | count child h | joined id r2 h =>
    exact hi.of_same rfl rfl hsame hkeep (hend (by simp [State.goto])) (hjoin (by simp [h]))
      (hwait (by simp [h]))
  | fork child q p h =>
    obtain ⟨id, h, rfl, rfl⟩ | ⟨h, rfl, rfl⟩ := h
    all_goals
      exact hi.of_same rfl rfl hsame hkeep (hend (by simp [State.goto])) (hjoin (by simp [h]))
        (hwait (by simp [h]))
  | back p r2 h =>
    obtain ⟨h, rfl⟩ | ⟨id, h, rfl | rfl⟩ := h
    all_goals
      exact hi.of_same rfl rfl hsame hkeep (hend (by simp [State.goto])) (hjoin (by simp [h]))
        (hwait (by simp [h]))
  | fail id h =>
    refine hi.of_same rfl rfl hsame hkeep (fun e he hsem hp => ?_) (hjoin (by simp [h]))
      (hwait (by simp [h]))
    simp only [State.timely, h, List.all_eq_true, decide_eq_true_eq] at ht
    have hne : e.thread ≠ t := fun hth => hsem (ht e he hth)
    simpa [State.goto, hne] using hp
  | push child h =>
    refine hi.of_same rfl rfl (fun e he k hk => ?_) (fun id e k he hk => ⟨e, ?_, hk⟩)
      (hend (by simp [State.goto])) (hjoin (by simp [h])) (hwait (by simp [h]))
    · obtain he | he := List.mem_append.mp he
      · exact hsame e he k hk
      · rw [List.mem_singleton.mp he] at hk
        cases hk
    · simp only [State.goto]
      rw [List.getElem?_append_left (List.getElem?_eq_some_iff.mp he).1]
      exact he
  | storeThread id k h =>
    refine hi.of_same rfl rfl (fun e he k hk => ?_) (fun id' e k he hk => ?_)
      (hend (by simp [State.goto])) (hjoin (by simp [h])) (hwait (by simp [h]))
    · obtain ⟨j, hj'⟩ := List.mem_iff_getElem?.mp he
      simp only [State.goto, State.setEntry, List.getElem?_modify, Option.map_eq_map,
        Option.map_eq_some_iff] at hj'
      obtain ⟨e₀, he₀, rfl⟩ := hj'
      refine ⟨e₀, List.mem_of_getElem? he₀, ?_⟩
      split_ifs at hk ⊢ <;> exact ⟨hk, rfl⟩
    · refine ⟨if id = id' then { e with hiloJ := s.address t } else e, ?_, ?_⟩
      · simp only [State.goto, State.setEntry, List.getElem?_modify, he]
        split_ifs <;> rfl
      · split_ifs <;> exact hk

structure Inv (s : State) : Prop where
  threads : Threads s
  joins : Joins s

theorem inv_init (h : Init s) : Inv s := by
  obtain ⟨hmain, hpc, hth, hent, -, hsem, hj⟩ := h
  have huser : ∀ t, s.pc t = .user ∨ s.pc t = .absent := by
    intro t
    by_cases ht : t = 0
    · exact .inl (ht ▸ hmain)
    · exact .inr (hpc t ht)
  have hzero : ∀ t, s.live t → t = 0 := by
    intro t ht
    by_contra hne
    exact ht.1 (hpc t hne)
  have hchild : ∀ t c, (s.pc t).child? ≠ some c := by
    intro t c
    obtain h | h := huser t <;> simp [h, Pc.child?]
  have hjoin : ∀ t id k, (s.pc t).join? ≠ some (id, k) := by
    intro t id k
    obtain h | h := huser t <;> simp [h, Pc.join?]
  refine ⟨⟨fun t => ?_, fun t u ht hu _ => ?_, fun t c h => absurd h (hchild t c),
    fun t u c h => absurd h (hchild t c)⟩, ⟨by simp [hent], fun t id h => ?_,
    fun t id k h => absurd h (hjoin t id k), fun t u id id' k h => absurd h (hjoin t id k),
    by simp [hent], fun t id k h => absurd h (hjoin t id k), fun t id h => ?_, by simp [hj]⟩⟩
  · rw [hth]
    by_cases ht : t = 0
    · simp [ht, hmain]
    · simp [hpc t ht, Nat.one_le_iff_ne_zero, ht]
  · rw [hzero t ht, hzero u hu]
  · obtain h' | h' := huser t <;> simp [h'] at h
  · obtain h' | h' := huser t <;> simp [h'] at h

theorem inv_step (hi : Inv s) (h : Step s s') : Inv s' := by
  obtain ⟨t, input, h⟩ := h
  have hm := step_move h
  exact ⟨threads_step hi.threads hm, joins_step hi.threads hi.joins hm⟩

theorem served_init (h : Init s) : Served s := by
  obtain ⟨hmain, hpc, -, hent, -, hsem, -⟩ := h
  have huser : ∀ t, s.pc t = .user ∨ s.pc t = .absent := by
    intro t
    by_cases ht : t = 0
    · exact .inl (ht ▸ hmain)
    · exact .inr (hpc t ht)
  refine ⟨by simp [hsem], by simp [hent], fun t id k h => ?_, fun t id k h => ?_⟩
  · obtain h' | h' := huser t <;> simp [h'] at h
  · obtain h' | h' := huser t <;> simp [h', Pc.join?] at h

def TimelyStep (s s' : State) : Prop := ∃ t input, s.timely t = true ∧ s.step t input = some s'

/-- In every run a Join returns 1 only after the program has ended; in a timely run a thread
sleeps in Join only while the program has not ended. -/
theorem join_spec (s : State) :
    (Reachable Init Step s → ∀ id ∈ s.joined, s.ended id) ∧
    (Reachable Init TimelyStep s →
      (∀ t id, s.blocked t id → id < s.ejecutables.length ∧ ¬s.ended id) ∧
      ∀ id ∈ s.joined, s.ended id) := by
  have hinv : ∀ {s}, Reachable Init Step s → Inv s := fun h =>
    h.invariant (fun _ h => inv_init h) (fun _ _ hi h => inv_step hi h)
  have hinv' : ∀ {s}, Reachable Init TimelyStep s → Inv s := fun h =>
    hinv (h.mono (fun _ h => h) fun _ _ ⟨t, input, _, h⟩ => ⟨t, input, h⟩)
  refine ⟨fun h => (hinv h).joins.joined, fun h => ⟨fun t id hb => ?_, (hinv' h).joins.joined⟩⟩
  have hs : Served s := h.invariant_of hinv' (fun _ h => served_init h)
    fun s s' hi hs ⟨t, input, ht, h⟩ => served_step hi.joins hs ht (step_move h)
  obtain ⟨k, hpc, hq⟩ := hb
  have hj : (s.pc t).join? = some (id, k) := by rw [hpc]; rfl
  refine ⟨((hinv' h).joins.join t id k hj).1, ?_⟩
  rintro ⟨e, he, hend⟩
  obtain hnil | ⟨hv, -⟩ := hs.queue t id k hj
  · rw [hnil] at hq
    cases hq
  · obtain ⟨e', he', hk⟩ := hs.waiting t id k (.inr hpc) hv
    rw [he, Option.some.injEq] at he'
    subst he'
    exact hs.awaited e (List.mem_of_getElem? he) k hk hend

def State.boot : State where
  pc := Function.update (fun _ => .absent) 0 .user
  address := fun _ => 0
  threads := 1
  ejecutables := []
  archivoAE := -1
  semaphores := fun _ => ⟨0, []⟩
  semaphoreCount := 0
  r2 := fun _ => 0
  joined := []

theorem init_boot : Init State.boot :=
  ⟨rfl, fun _ ht => by simp [State.boot, ht], rfl, rfl, rfl, rfl, rfl⟩

def State.stuck (s : State) : Bool :=
  match s.pc 0 with
  | .joinWait id k => decide (0 ∈ (s.semaphores k).queue) &&
      s.ejecutables[id]?.any fun e => decide (s.pc e.thread = .terminated)
  | _ => false

theorem stuck_spec (h : s.stuck = true) : ∃ id, s.blocked 0 id ∧ s.ended id := by
  unfold State.stuck at h
  split at h
  · rename_i id k hpc
    simp only [Bool.and_eq_true, decide_eq_true_eq, Option.any_eq_true] at h
    obtain ⟨hq, e, he, hend⟩ := h
    exact ⟨id, ⟨k, hpc, hq⟩, e, he, hend⟩
  · cases h

def run (inputs : List (ℕ × Input)) : Option State :=
  inputs.foldlM (fun s (t, input) => s.step t input) State.boot

def execRun : List (ℕ × Input) :=
  [(0, .exec), (0, .address 100)] ++ List.replicate 4 (0, .exec)

def lateJoin : List (ℕ × Input) :=
  execRun ++ [(1, .opened true), (1, .exit)] ++ List.replicate 5 (0, .join 0)

def doubleJoin : List (ℕ × Input) :=
  execRun ++ [(0, .fork), (0, .address 200), (0, .exec)] ++ List.replicate 5 (0, .join 0) ++
    List.replicate 5 (2, .join 0) ++ [(1, .opened true), (1, .exit)]

def failedExec : List (ℕ × Input) :=
  execRun ++ List.replicate 5 (0, .join 0) ++ [(1, .opened false), (1, .exec)]

theorem stuck_of_run {inputs : List (ℕ × Input)} (h : (run inputs).any State.stuck = true) :
    ∃ s, run inputs = some s ∧ Reachable Init Step s ∧ ∃ id, s.blocked 0 id ∧ s.ended id := by
  obtain ⟨s, hs, hst⟩ := Option.any_eq_true _ _ |>.mp h
  exact ⟨s, hs, Reachable.of_foldlM (fun s a s' h => ⟨a.1, a.2, h⟩) (.init init_boot) hs,
    stuck_spec hst⟩

theorem join_sleeps_on_ended :
    (∃ s, run lateJoin = some s ∧ Reachable Init Step s ∧
      ∃ id, s.blocked 0 id ∧ s.ended id) ∧
    (∃ s, run doubleJoin = some s ∧ Reachable Init Step s ∧
      ∃ id, s.blocked 0 id ∧ s.ended id) ∧
    ∃ s, run failedExec = some s ∧ Reachable Init Step s ∧
      ∃ id, s.blocked 0 id ∧ s.ended id :=
  ⟨stuck_of_run (by decide), stuck_of_run (by decide), stuck_of_run (by decide)⟩

def timelyRun (inputs : List (ℕ × Input)) : Option State :=
  inputs.foldlM (fun s (t, input) => if s.timely t then s.step t input else none) State.boot

def earlyJoin : List (ℕ × Input) :=
  execRun ++ List.replicate 5 (0, .join 0) ++ [(1, .opened true), (1, .exit)] ++
    List.replicate 2 (0, .exec)

theorem earlyJoin_joined : ∃ s, timelyRun earlyJoin = some s ∧ s.joined = [0] ∧ s.ended 0 := by
  have hjoined : (timelyRun earlyJoin).any (fun s => decide (s.joined = [0])) = true := by decide
  obtain ⟨s, hs, hj⟩ := Option.any_eq_true _ _ |>.mp hjoined
  have hr : Reachable Init TimelyStep s := by
    refine Reachable.of_foldlM (fun s a s' h => ?_) (.init init_boot) hs
    dsimp only at h
    split_ifs at h with ht
    exact ⟨a.1, a.2, ht, h⟩
  have hj := of_decide_eq_true hj
  exact ⟨s, hs, hj, ((join_spec s).2 hr).2 0 (by rw [hj]; exact List.mem_singleton_self 0)⟩

end Nachos.ExecJoin
