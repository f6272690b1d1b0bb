import Nachos.SystemCallGuards

/-! The handles of a thread and the descriptors of the host, over any sequence of `Open` and
`Close`. A call starts from the registers and the memory that the user program left; the host
answers `open` with -1 or with a descriptor that was not open, and `close` releases its
argument. A call that traps ends the run. Since `openFiles` points to an array on the stack of the
constructor, which has returned, other code may write over it between two calls. -/
namespace Nachos

open EStateM

variable {μ T : Type} [DecidableEq T]

namespace Syscall

theorem nachosOpen_eq_ok {mem : UserMemory μ} {host : Host} {s s' : Sys μ T}
    (h : nachosOpen mem host s = .ok () s') :
    ∃ name idFake t, (s.nop s.currentThread).openHandle (host.openUnix name) = .ok (idFake, t) ∧
      s'.nop s'.currentThread = t ∧ s'.r2 = BitVec.ofInt 32 idFake ∧ s'.actions = s.actions := by
  obtain ⟨_, _, hget, h⟩ := bind_eq_ok h
  cases hget
  obtain ⟨name, s₁, hname, h⟩ := bind_eq_ok h
  obtain ⟨m, rfl⟩ := onMem_eq_ok hname
  rw [apply_bind, nop_apply] at h
  obtain ⟨⟨idFake, t⟩, s₂, hopen, h⟩ := bind_eq_ok h
  obtain ⟨ho, rfl⟩ := check_eq_ok hopen
  cases h
  exact ⟨name, idFake, t, ho, by simp, rfl, rfl⟩

theorem nachosClose_eq_ok {s s' : Sys μ T} (h : nachosClose s = .ok () s') :
    ∃ id2 ret t, (s.nop s.currentThread).getUnixHandle s.r4.toInt = .ok id2 ∧
      (s.nop s.currentThread).close s.r4.toInt = .ok (ret, t) ∧ s'.nop s'.currentThread = t ∧
      s'.actions = s.actions ++ [.closeUnix id2] := by
  obtain ⟨_, _, hget, h⟩ := bind_eq_ok h
  cases hget
  rw [apply_bind, nop_apply] at h
  obtain ⟨id2, s₁, hunix, h⟩ := bind_eq_ok h
  obtain ⟨hu, rfl⟩ := check_eq_ok hunix
  rw [apply_bind, act_apply] at h
  dsimp only at h
  rw [apply_bind, nop_apply] at h
  obtain ⟨⟨ret, t⟩, s₂, hclose, h⟩ := bind_eq_ok h
  obtain ⟨hc, rfl⟩ := check_eq_ok hclose
  cases h
  exact ⟨id2, ret, t, hu, hc, by simp, rfl⟩

end Syscall

structure Files where
  table : NachosOpenFilesTable
  fds : Finset ℤ
  r2 : Word

/-- A call, with the user program's state; for `Open` also the answer of the host. Or other code
writes over `openFiles`. -/
inductive FileCall (μ T : Type) where
  | openFile (user : Sys μ T) (fd : ℤ)
  | close (user : Sys μ T)
  | overwrite (values : Vector ℤ maxArch)

namespace Files

variable (mem : UserMemory μ) (host : Host)

def enter (s : Files) (user : Sys μ T) : Sys μ T :=
  { user with nop := Function.update user.nop user.currentThread s.table, actions := [] }

def hostAct (fds : Finset ℤ) : Action → Finset ℤ
  | .closeUnix fd => fds.erase fd
  | _ => fds

def leave (fds : Finset ℤ) : Result Trap (Sys μ T) Unit → Option Files
  | .ok _ sys => some ⟨sys.nop sys.currentThread, sys.actions.foldl hostAct fds, sys.r2⟩
  | .error _ _ => none

def step (s : Files) : FileCall μ T → Option Files
  | .openFile user fd =>
    if fd = -1 then
      leave s.fds (Syscall.nachosOpen mem { host with openUnix := fun _ => fd } (s.enter user))
    else if 0 ≤ fd ∧ fd ∉ s.fds then
      leave (insert fd s.fds)
        (Syscall.nachosOpen mem { host with openUnix := fun _ => fd } (s.enter user))
    else none
  | .close user => leave s.fds (Syscall.nachosClose (s.enter user))
  | .overwrite values => some { s with table := { s.table with values := values } }

def run (s : Files) (calls : List (FileCall μ T)) : Option Files := calls.foldlM (step mem host) s

def Init (s : Files) : Prop :=
  (∃ usage, s.table = .new usage) ∧ ∀ fd : ℤ, 0 ≤ fd → fd ≤ 2 → fd ∈ s.fds

/-- Every handle is bound to an open descriptor of its own, and those of the console are open. -/
structure Disciplined (s : Files) : Prop where
  console : ∀ fd : ℤ, 0 ≤ fd → fd ≤ 2 → fd ∈ s.fds
  bound : ∀ handle : ℤ, 3 ≤ handle → s.table.isOpened handle = .ok true →
    ∃ fd, s.table.getUnixHandle handle = .ok fd ∧ 3 ≤ fd ∧ fd ∈ s.fds
  distinct : ∀ i j : ℤ, s.table.isOpened i = .ok true → s.table.isOpened j = .ok true →
    s.table.getUnixHandle i = s.table.getUnixHandle j → i = j

/-- A failed `open` of the host is reported and changes nothing. -/
def FailureReported (s : Files) (s' : Files) : FileCall μ T → Prop
  | .openFile _ fd => fd = -1 → s'.r2 = -1 ∧ s'.table = s.table
  | .close _ => True
  | .overwrite _ => True

/-- The host could open the file, and no handle of the console is closed. -/
def Meets : FileCall μ T → Prop
  | .openFile _ fd => fd ≠ -1
  | .close user => ¬(0 ≤ user.r4.toInt ∧ user.r4.toInt ≤ 2)
  | .overwrite _ => True

/-- Other code leaves the entries of the open handles as they are. -/
def Keeps (s : Files) : FileCall μ T → Prop
  | .openFile _ _ => True
  | .close _ => True
  | .overwrite values => ∀ k < maxArch, s.table.map.bit k = true →
      values[k]? = s.table.values[k]?

variable {mem host} {s s' : Files}

omit [DecidableEq T] in
theorem leave_eq_some {fds : Finset ℤ} {r : Result Trap (Sys μ T) Unit}
    (h : leave fds r = some s') : ∃ sys, r = .ok () sys ∧
      s' = ⟨sys.nop sys.currentThread, sys.actions.foldl hostAct fds, sys.r2⟩ := by
  cases r with
  | ok a sys => exact ⟨sys, rfl, (Option.some.inj h).symm⟩
  | error t sys => cases h

theorem leave_open {user : Sys μ T} {fd : ℤ} {fds : Finset ℤ} (h : leave fds (Syscall.nachosOpen mem
      { host with openUnix := fun _ => fd } (s.enter user)) = some s') :
    s'.fds = fds ∧ ∃ space, s.table.register fd = .ok (space, s'.table.toHandleTable) ∧
      s'.r2 = BitVec.ofInt 32 space := by
  obtain ⟨sys, hsys, rfl⟩ := leave_eq_some h
  obtain ⟨name, idFake, t, hopen, ht, hr2, hact⟩ := Syscall.nachosOpen_eq_ok hsys
  simp only [enter, Function.update_self] at hopen hact
  refine ⟨by rw [hact]; rfl, idFake, ?_, hr2⟩
  rw [NachosOpenFilesTable.openHandle_ok hopen, ht]

theorem step_openFile {user : Sys μ T} {fd : ℤ}
    (h : step mem host s (.openFile user fd) = some s') :
    (fd = -1 ∨ 0 ≤ fd ∧ fd ∉ s.fds ∧ s'.fds = insert fd s.fds) ∧
      ∃ space, s.table.register fd = .ok (space, s'.table.toHandleTable) ∧
        s'.r2 = BitVec.ofInt 32 space := by
  rw [step] at h
  split_ifs at h with hfd hnew
  · exact ⟨.inl hfd, (leave_open h).2⟩
  · exact ⟨.inr ⟨hnew.1, hnew.2, (leave_open h).1⟩, (leave_open h).2⟩

theorem step_close {user : Sys μ T} (h : step mem host s (.close user) = some s') :
    ∃ id2, s.table.lookup user.r4.toInt = .ok id2 ∧ s'.fds = s.fds.erase id2 ∧
      s'.table.binding = if 2 < user.r4.toInt then
        Function.update s.table.binding user.r4.toInt none else s.table.binding := by
  obtain ⟨sys, hsys, rfl⟩ := leave_eq_some h
  obtain ⟨id2, ret, t, hunix, hclose, ht, hact⟩ := Syscall.nachosClose_eq_ok hsys
  simp only [enter, Function.update_self] at hunix hclose hact
  refine ⟨id2, hunix, by rw [hact]; rfl, ?_⟩
  rw [ht]
  obtain ⟨hgt, -, hrel⟩ | ⟨rfl, hno⟩ := NachosOpenFilesTable.close_cases hclose
  · rw [if_pos hgt, (HandleTable.release_binding hrel).2]
  · split_ifs with hgt
    · rw [Function.update_eq_self_iff.mpr]
      symm
      exact HandleTable.binding_eq_none_iff.mpr (by simpa [hgt] using hno)
    · rfl

theorem step_overwrite {values : Vector ℤ maxArch} (hk : s.Keeps (.overwrite values : FileCall μ T))
    (h : step mem host s (.overwrite values : FileCall μ T) = some s') :
    s'.fds = s.fds ∧ s'.table.binding = s.table.binding := by
  cases h
  refine ⟨rfl, ?_⟩
  funext i
  unfold HandleTable.binding HandleTable.holds
  dsimp only
  split_ifs with hi
  · simp only [Bool.and_eq_true, BitMap.inRange, decide_eq_true_eq] at hi
    rw [hk i.toNat (by omega) hi.2]
  · rfl

def ConsoleBound (s : Files) : Prop := ∀ i : ℤ, 0 ≤ i → i ≤ 2 → s.table.binding i = some i

theorem consoleBound_init (h : s.Init) : s.ConsoleBound := by
  obtain ⟨⟨usage, ht⟩, -⟩ := h
  intro i h0 h2
  rw [ht, NachosOpenFilesTable.binding_new h0 h2]

theorem ConsoleBound.step {c : FileCall μ T} (h : s.ConsoleBound) (hk : s.Keeps c)
    (hstep : step mem host s c = some s') : s'.ConsoleBound := by
  intro i h0 h2
  cases c with
  | openFile user fd =>
    obtain ⟨-, space, hreg, -⟩ := step_openFile hstep
    obtain ⟨-, hfree, -, hbind⟩ := HandleTable.register_binding hreg
    have hne : i ≠ space := by
      rintro rfl
      rw [h i h0 h2] at hfree
      cases hfree
    rw [hbind, Function.update_of_ne hne, h i h0 h2]
  | close user =>
    obtain ⟨id2, -, -, hbind⟩ := step_close hstep
    rw [hbind]
    split_ifs with hgt
    · rw [Function.update_of_ne (by omega), h i h0 h2]
    · exact h i h0 h2
  | overwrite values =>
    rw [(step_overwrite hk hstep).2]
    exact h i h0 h2

/-- The other handles are bound to descriptors of their own. -/
structure Owned (s : Files) : Prop where
  console : ∀ fd : ℤ, 0 ≤ fd → fd ≤ 2 → fd ∈ s.fds
  bound : ∀ handle fd : ℤ, 3 ≤ handle → s.table.binding handle = some fd → 3 ≤ fd ∧ fd ∈ s.fds
  distinct : ∀ i j fd : ℤ, 3 ≤ i → 3 ≤ j → s.table.binding i = some fd →
    s.table.binding j = some fd → i = j

theorem owned_init (h : s.Init) : s.Owned := by
  obtain ⟨⟨usage, ht⟩, hfds⟩ := h
  refine ⟨hfds, fun handle fd hge hb => ?_, fun i j fd hi _ hb _ => ?_⟩
  · rw [ht, NachosOpenFilesTable.binding_new_of_gt (by omega)] at hb
    cases hb
  · rw [ht, NachosOpenFilesTable.binding_new_of_gt (by omega)] at hb
    cases hb

theorem Owned.openFile {user : Sys μ T} {fd : ℤ} (h : s.Owned) (hfd : fd ≠ -1)
    (hstep : step mem host s (.openFile user fd) = some s') : s'.Owned := by
  obtain ⟨hans, space, hreg, -⟩ := step_openFile hstep
  obtain ⟨-, hfree, -, hbind⟩ := HandleTable.register_binding hreg
  obtain ⟨h0, hnew, hfds⟩ := hans.resolve_left hfd
  have h3 : 3 ≤ fd := by
    by_contra hlt
    exact hnew (h.console fd h0 (by omega))
  have hold : ∀ handle, 3 ≤ handle → s.table.binding handle ≠ some fd := fun handle hge hb =>
    hnew (h.bound handle fd hge hb).2
  refine ⟨fun i hi0 hi2 => ?_, fun handle g hge hb => ?_, fun i j g hi hj hbi hbj => ?_⟩
  · rw [hfds]
    exact Finset.mem_insert_of_mem (h.console i hi0 hi2)
  · rw [hbind, Function.update_apply] at hb
    rw [hfds, Finset.mem_insert]
    split_ifs at hb with he
    · obtain rfl := Option.some.inj hb
      exact ⟨h3, .inl rfl⟩
    · exact ⟨(h.bound handle g hge hb).1, .inr (h.bound handle g hge hb).2⟩
  · rw [hbind, Function.update_apply] at hbi hbj
    split_ifs at hbi hbj with hei hej hej
    · rw [hei, hej]
    · exact absurd (Option.some.inj hbi ▸ hbj) (hold j hj)
    · exact absurd (Option.some.inj hbj ▸ hbi) (hold i hi)
    · exact h.distinct i j g hi hj hbi hbj

theorem Owned.close {user : Sys μ T} (h : s.Owned)
    (hid : ¬(0 ≤ user.r4.toInt ∧ user.r4.toInt ≤ 2))
    (hstep : step mem host s (.close user) = some s') : s'.Owned := by
  obtain ⟨id2, hunix, hfds, hbind⟩ := step_close hstep
  obtain ⟨hr, hid2⟩ := HandleTable.lookup_ok hunix
  have hgt : 2 < user.r4.toInt := by
    simp only [BitMap.inRange, decide_eq_true_eq] at hr
    omega
  rw [if_pos hgt] at hbind
  have hcases : id2 = -1 ∨ s.table.binding user.r4.toInt = some id2 ∧ 3 ≤ id2 := by
    cases hb : s.table.binding user.r4.toInt with
    | none => exact .inl (by rw [hid2, hb]; rfl)
    | some fd =>
      obtain rfl : id2 = fd := by rw [hid2, hb]; rfl
      exact .inr ⟨rfl, (h.bound _ _ (by omega) hb).1⟩
  refine ⟨fun i hi0 hi2 => ?_, fun handle g hge hb => ?_, fun i j g hi hj hbi hbj => ?_⟩
  · rw [hfds, Finset.mem_erase]
    exact ⟨by omega, h.console i hi0 hi2⟩
  · rw [hbind, Function.update_apply] at hb
    split_ifs at hb with he
    obtain ⟨hg3, hg⟩ := h.bound handle g hge hb
    refine ⟨hg3, ?_⟩
    rw [hfds, Finset.mem_erase]
    refine ⟨?_, hg⟩
    rintro rfl
    obtain hneg | ⟨hb', -⟩ := hcases
    · omega
    · exact he (h.distinct _ _ _ hge (by omega) hb hb')
  · rw [hbind, Function.update_apply] at hbi hbj
    split_ifs at hbi hbj
    exact h.distinct i j g hi hj hbi hbj

theorem Owned.step {c : FileCall μ T} (h : s.Owned) (hk : s.Keeps c) (hc : Meets c)
    (hstep : step mem host s c = some s') : s'.Owned := by
  cases c with
  | openFile user fd => exact h.openFile hc hstep
  | close user => exact h.close hc hstep
  | overwrite values =>
    obtain ⟨hfds, hbind⟩ := step_overwrite hk hstep
    refine ⟨?_, ?_, ?_⟩
    · rw [hfds]
      exact h.console
    · rw [hfds, hbind]
      exact h.bound
    · rw [hbind]
      exact h.distinct

theorem Owned.disciplined (h : s.Owned) (hc : s.ConsoleBound) : s.Disciplined := by
  have hlow : ∀ {handle fd : ℤ}, s.table.binding handle = some fd → handle < 3 → fd = handle := by
    intro handle fd hb hlt
    have hr := HandleTable.inRange_of_binding hb
    simp only [BitMap.inRange, decide_eq_true_eq] at hr
    rw [hc handle hr.1 (by omega)] at hb
    exact (Option.some.inj hb).symm
  refine ⟨h.console, fun handle hge ho => ?_, fun i j hi hj hij => ?_⟩
  · obtain ⟨fd, hfd⟩ := NachosOpenFilesTable.binding_of_isOpened ho
    exact ⟨fd, HandleTable.lookup_binding hfd, h.bound handle fd hge hfd⟩
  · obtain ⟨fd, hi⟩ := NachosOpenFilesTable.binding_of_isOpened hi
    obtain ⟨g, hj⟩ := NachosOpenFilesTable.binding_of_isOpened hj
    rw [NachosOpenFilesTable.getUnixHandle, NachosOpenFilesTable.getUnixHandle,
      HandleTable.lookup_binding hi, HandleTable.lookup_binding hj] at hij
    obtain rfl := Except.ok.inj hij
    by_cases hi3 : i < 3 <;> by_cases hj3 : j < 3
    · rw [← hlow hi hi3, ← hlow hj hj3]
    · have := hlow hi hi3
      have := (h.bound j fd (by omega) hj).1
      omega
    · have := hlow hj hj3
      have := (h.bound i fd (by omega) hi).1
      omega
    · exact h.distinct i j fd (by omega) (by omega) hi hj

theorem meets_of_kept {c : FileCall μ T} (h : s.ConsoleBound) (hstep : step mem host s c = some s')
    (hd : s'.Disciplined) (hf : FailureReported s s' c) : Meets c := by
  cases c with
  | openFile user fd =>
    rintro rfl
    obtain ⟨-, space, hreg, hr2⟩ := step_openFile hstep
    have hr := (HandleTable.register_binding hreg).1
    simp only [BitMap.inRange, decide_eq_true_eq, maxArch] at hr
    have heq : BitVec.ofInt 32 space = -1 := hr2.symm.trans (hf rfl).1
    have hint := congrArg BitVec.toInt heq
    rw [BitVec.toInt_ofInt_eq_self (by norm_num) (by omega) (by omega)] at hint
    have hneg : (-1 : Word).toInt = -1 := by decide
    omega
  | close user =>
    rintro ⟨h0, h2⟩
    obtain ⟨id2, hunix, hfds, -⟩ := step_close hstep
    rw [HandleTable.lookup_binding (h _ h0 h2)] at hunix
    obtain rfl := Except.ok.inj hunix
    have hmem := hd.console _ h0 h2
    rw [hfds] at hmem
    exact Finset.notMem_erase _ _ hmem
  | overwrite values => trivial

/-- What the calls of a run preserve as long as other code leaves the open handles alone. -/
theorem run_invariant {P : Files → Prop} {s₀ : Files} {calls : List (FileCall μ T)}
    (hstep : ∀ s s' c, s.Keeps c → c ∈ calls → P s → step mem host s c = some s' → P s')
    (h₀ : P s₀) (hkeep : ∀ pre c post s₁, calls = pre ++ c :: post → s₀.run mem host pre = some s₁ →
      s₁.Keeps c) {pre post : List (FileCall μ T)} (hcalls : calls = pre ++ post)
    (hrun : s₀.run mem host pre = some s) : P s := by
  induction pre using List.reverseRecOn generalizing s post with
  | nil =>
    cases hrun
    exact h₀
  | append_singleton pre c ih =>
    rw [run, List.foldlM_append] at hrun
    obtain ⟨s₁, hpre, hc⟩ := Option.bind_eq_some_iff.mp hrun
    have hsplit : calls = pre ++ c :: post := by rw [hcalls, List.append_assoc]; rfl
    have hmem : c ∈ calls := by
      rw [hsplit]
      exact List.mem_append_right _ List.mem_cons_self
    refine hstep s₁ s c (hkeep pre c post s₁ hsplit hpre) hmem (ih hsplit hpre) ?_
    simpa using hc

/-- A run in which other code leaves the entries of the open handles alone keeps the discipline at
every step if and only if each of its calls meets the condition. -/
theorem disciplined_iff_meets {s₀ : Files} {calls : List (FileCall μ T)} (hinit : s₀.Init)
    (hrun : s₀.run mem host calls = some s)
    (hkeep : ∀ pre c post s₁, calls = pre ++ c :: post → s₀.run mem host pre = some s₁ →
      s₁.Keeps c) :
    (∀ pre c post s₁ s₂, calls = pre ++ c :: post → s₀.run mem host pre = some s₁ →
        step mem host s₁ c = some s₂ → s₂.Disciplined ∧ FailureReported s₁ s₂ c) ↔
      ∀ c ∈ calls, Meets c := by
  have hconsole : ∀ {pre post : List (FileCall μ T)} {s₁ : Files}, calls = pre ++ post →
      s₀.run mem host pre = some s₁ → s₁.ConsoleBound := fun hl =>
    run_invariant (fun _ _ _ hk _ hp hstep => hp.step hk hstep) (consoleBound_init hinit) hkeep hl
  constructor
  · intro hkept c hc
    obtain ⟨pre, post, rfl⟩ := List.append_of_mem hc
    obtain ⟨s₁, s₂, hpre, hstep, -⟩ := foldlM_split hrun
    obtain ⟨hd, hf⟩ := hkept pre c post s₁ s₂ rfl hpre hstep
    exact meets_of_kept (hconsole rfl hpre) hstep hd hf
  · rintro hmeets pre c post s₁ s₂ rfl hpre hstep
    have hc := hmeets c (List.mem_append_right _ List.mem_cons_self)
    have hk := hkeep pre c post s₁ rfl hpre
    have howned : s₁.Owned := run_invariant
      (fun _ _ a hk ha hp hstep => hp.step hk (hmeets a ha) hstep) (owned_init hinit) hkeep rfl hpre
    refine ⟨(howned.step hk hc hstep).disciplined ((hconsole rfl hpre).step hk hstep), ?_⟩
    cases c with
    | openFile user fd => exact fun hfd => absurd hfd hc
    | close user => trivial
    | overwrite values => trivial

def zeros : UserMemory Unit := ⟨fun _ => pure (some 0), fun _ _ => pure true⟩

def deaf : Host where
  fgets := none
  read _ _ := none
  read_length := length_le_of_none_eq_some
  write _ _ := -1
  openUnix _ := -1
  newSemaphore := 0

def userWith (r4 : Word) : Sys Unit Unit :=
  ⟨0, r4, 0, 0, 0, 0, 0, (), (), fun _ => .new 0, .new 0, [], 0, []⟩

def consoleOnly : Files := ⟨.new 0, {0, 1, 2}, 0⟩

theorem init_consoleOnly : consoleOnly.Init := by
  refine ⟨⟨0, rfl⟩, fun fd h0 h2 => ?_⟩
  simp only [consoleOnly, Finset.mem_insert, Finset.mem_singleton]
  omega

/-- Entries that other code may write while handle 3 is bound to descriptor 3. -/
def strayValues : Vector ℤ maxArch := .ofFn fun i => if i.val < 4 then i.val else 7

def openClose : List (FileCall Unit Unit) :=
  [.openFile (userWith 0) 3, .overwrite strayValues, .close (userWith 3)]

theorem openClose_disciplined : ∃ s, consoleOnly.run zeros deaf openClose = some s ∧
    ∀ pre c post s₁ s₂, openClose = pre ++ c :: post → consoleOnly.run zeros deaf pre = some s₁ →
      step zeros deaf s₁ c = some s₂ → s₂.Disciplined ∧ FailureReported s₁ s₂ c := by
  have hrun : (consoleOnly.run zeros deaf openClose).isSome = true := by
    decide +kernel
  have hopened : (consoleOnly.run zeros deaf [.openFile (userWith 0) 3]).all (fun s : Files =>
      decide (∀ k < maxArch, s.table.map.bit k = true →
        strayValues[k]? = s.table.values[k]?)) = true := by
    decide +kernel
  obtain ⟨s, hs⟩ := Option.isSome_iff_exists.mp hrun
  refine ⟨s, hs, (disciplined_iff_meets init_consoleOnly hs fun pre c post s₁ hsplit hpre => ?_).mpr
    ?_⟩
  · cases c with
    | openFile user fd => trivial
    | close user => trivial
    | overwrite values =>
      obtain rfl | ⟨x, rfl⟩ | ⟨x, y, pre, rfl⟩ : pre = [] ∨ (∃ x, pre = [x]) ∨
          ∃ x y pre', pre = x :: y :: pre' := by
        rcases pre with _ | ⟨x, _ | ⟨y, pre⟩⟩ <;> simp
      · simp [openClose] at hsplit
      · simp only [openClose, List.cons_append, List.nil_append, List.cons.injEq,
          FileCall.overwrite.injEq] at hsplit
        obtain ⟨rfl, rfl, -⟩ := hsplit
        rw [hpre, Option.all_some, decide_eq_true_eq] at hopened
        exact hopened
      · rcases pre with _ | ⟨z, pre⟩ <;> simp [openClose] at hsplit
  · intro c hc
    simp only [openClose, List.mem_cons, List.not_mem_nil, or_false] at hc
    obtain rfl | rfl | rfl := hc
    · exact (by decide : (3 : ℤ) ≠ -1)
    · trivial
    · exact (by decide : ¬(0 ≤ (userWith 3).r4.toInt ∧ (userWith 3).r4.toInt ≤ 2))

/-- `Close(0)` closes the standard input of the host, and a failed `open` gets handle 3. When other
code has written over `openFiles`, handle 3 is bound to whatever it wrote. -/
theorem console_closed_and_failure_accepted :
    (∃ s, consoleOnly.run zeros deaf [.close (userWith 0)] = some s ∧ ¬s.Disciplined) ∧
      (∃ s, consoleOnly.run zeros deaf [.openFile (userWith 0) (-1)] = some s ∧ s.r2 = 3 ∧
        s.table.isOpened 3 = .ok true ∧ s.table.getUnixHandle 3 = .ok (-1)) ∧
      ∃ s, consoleOnly.run zeros deaf [.openFile (userWith 0) 3, .overwrite (.replicate _ 7)] =
        some s ∧ s.table.isOpened 3 = .ok true ∧ s.table.getUnixHandle 3 = .ok 7 ∧ 7 ∉ s.fds := by
  have hclose : (consoleOnly.run zeros deaf [.close (userWith 0)]).any
      (fun s : Files => decide ((0 : ℤ) ∉ s.fds)) = true := by
    decide +kernel
  have hopen : (consoleOnly.run zeros deaf [.openFile (userWith 0) (-1)]).any (fun s : Files =>
      decide (s.r2 = 3) && decide (s.table.isOpened 3 = .ok true) &&
        decide (s.table.getUnixHandle 3 = .ok (-1))) = true := by
    decide +kernel
  have hstray : (consoleOnly.run zeros deaf
      [.openFile (userWith 0) 3, .overwrite (.replicate _ 7)]).any (fun s : Files =>
        decide (s.table.isOpened 3 = .ok true) && decide (s.table.getUnixHandle 3 = .ok 7) &&
          decide (7 ∉ s.fds)) = true := by
    decide +kernel
  obtain ⟨s, hs, hfds⟩ := (Option.any_eq_true _ _).mp hclose
  obtain ⟨s', hs', hh⟩ := (Option.any_eq_true _ _).mp hopen
  obtain ⟨s'', hs'', hh''⟩ := (Option.any_eq_true _ _).mp hstray
  simp only [Bool.and_eq_true, decide_eq_true_eq] at hh hh''
  exact ⟨⟨s, hs, fun hd => of_decide_eq_true hfds (hd.console 0 le_rfl (by norm_num))⟩,
    ⟨s', hs', hh.1.1, hh.1.2, hh.2⟩, s'', hs'', hh''.1.1, hh''.1.2, hh''.2⟩

end Files

end Nachos
