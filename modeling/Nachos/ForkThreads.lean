import Nachos.PlainMemory
import Nachos.SpaceLife

/-! A parent and the threads it forks (`exception.cc`, `addrspace.cc`), in either build. The copy
constructor copies the entries below the last eight pages once; what the paging code does to one
table later is not told to the others, and with `VM` the entries of one thread are still in the TLB
when the next one runs. -/
namespace Nachos

def Build.mmu (s : Vm) : Build → Mmu
  | .plain => .pageTable s.space.pageTable
  | .vm => .tlb s.tlb

/-- `Translate` without `VM`, where no exception comes back. -/
def plainPlace (addr : Word) (size : ℕ) (writing : Bool) : Kernel ℕ := do
  let s ← get
  match translate (.pageTable s.space.pageTable) addr size writing with
  | .error t => throw t
  | .ok (.error .pageFault) => throw .memory
  | .ok (.error _) => throw .assertion
  | .ok (.ok (pa, .pageTable pageTable)) => do
    set { s with space := { s.space with pageTable := pageTable } }
    return pa
  | .ok (.ok (_, .tlb _)) => throw .memory

namespace Access

/-- One `ReadMem` or `WriteMem`: the value loaded or stored, or nothing after a page fault. -/
def perform : Build → Access → Kernel (Option Word)
  | .plain, .load a n => do
    let pa ← plainPlace a n false
    let s ← get
    match s.mainMemory.read pa n with
    | some v => return some v
    | none => throw .assertion
  | .plain, .store a n v => do
    let pa ← plainPlace a n true
    modify fun s => { s with mainMemory := s.mainMemory.store pa n v }
    return some v
  | .vm, .load a n => vmReadMem a n
  | .vm, .store a n v => do
    if ← vmWriteMem a n v then return some v
    return none

def value (mem : Memory) (pa : ℕ) : Access → Option Word
  | .load _ n => mem.read pa n
  | .store _ _ v => some v

def memory (mem : Memory) (pa : ℕ) : Access → Memory
  | .load _ _ => mem
  | .store _ n v => mem.store pa n v

end Access

def TranslationEntry.frame (e : TranslationEntry) : Option ℕ :=
  if e.valid = true ∧ 0 ≤ e.physicalPage then some e.physicalPage.toNat else none

/-- The page tables map the same pages to the same frames, and the core maps are alike. -/
structure AddrSpace.SameFrames (a a' : AddrSpace) : Prop where
  frames : ∀ v : ℕ, (a'.pageTable[v]?).map (fun e => (e.valid, e.physicalPage)) =
    (a.pageTable[v]?).map fun e => (e.valid, e.physicalPage)
  iptEntries : a'.iptEntries = a.iptEntries
  copied : a'.copied = a.copied

section Perform

variable {s s' : Vm} {addr : Word} {size pa : ℕ} {writing : Bool}

structure Touched (s s' : Vm) : Prop where
  frames : s.space.SameFrames s'.space
  memoryMap : s'.memoryMap = s.memoryMap
  mainMemory : s'.mainMemory = s.mainMemory

theorem translateOrServe_some (h : translateOrServe addr size writing s = .ok (some pa) s') :
    (∃ mmu, translate (.tlb s.tlb) addr size writing = .ok (.ok (pa, mmu))) ∧ Touched s s' := by
  simp only [translateOrServe, EStateM.apply_bind, EStateM.apply_get] at h
  cases htr : translate (.tlb s.tlb) addr size writing with
  | error t => simp [htr] at h
  | ok r =>
    cases r with
    | error e =>
      simp only [htr] at h
      obtain ⟨⟨⟩, s₁, -, h⟩ := EStateM.bind_eq_ok h
      cases h
    | ok p =>
      obtain ⟨pa', mmu⟩ := p
      cases mmu with
      | tlb t =>
        simp only [htr, EStateM.apply_bind, EStateM.apply_set, EStateM.apply_pure] at h
        cases h
        exact ⟨⟨_, rfl⟩, ⟨fun _ => rfl, rfl, rfl⟩, rfl, rfl⟩
      | pageTable es => simp [htr] at h

theorem plainPlace_inv (h : plainPlace addr size writing s = .ok pa s') :
    (∃ mmu, translate (.pageTable s.space.pageTable) addr size writing = .ok (.ok (pa, mmu))) ∧
      Touched s s' := by
  simp only [plainPlace, EStateM.apply_bind, EStateM.apply_get] at h
  cases htr : translate (.pageTable s.space.pageTable) addr size writing with
  | error t => simp [htr] at h
  | ok r =>
    cases r with
    | error e => cases e <;> simp [htr] at h
    | ok p =>
      obtain ⟨pa', mmu⟩ := p
      cases mmu with
      | tlb t => simp [htr] at h
      | pageTable es =>
        simp only [htr, EStateM.apply_bind, EStateM.apply_set, EStateM.apply_pure] at h
        cases h
        have hs := (translate_eq_ok htr).2.1
        have hs' := translate_same_symm htr
        refine ⟨⟨_, rfl⟩, ⟨fun v => ?_, rfl, rfl⟩, rfl, rfl⟩
        dsimp only
        cases he : s.space.pageTable[v]? with
        | some e =>
          obtain ⟨e', he', hsame⟩ := hs v e he
          rw [he', Option.map_some, Option.map_some, hsame.valid, hsame.physicalPage]
        | none =>
          cases he' : es[v]? with
          | none => rfl
          | some e' =>
            obtain ⟨e, he'', -⟩ := hs' v e' he'
            rw [he] at he''
            cases he''

/-- An access that has gone through the entry `e` of its page to physical address `pa`. -/
structure Performed (b : Build) (acc : Access) (s s' : Vm) (r : Option Word)
    (e : TranslationEntry) (pa : ℕ) : Prop where
  aligned : misaligned acc.addr acc.size = false
  find : (b.mmu s).find (acc.addr.toNat / pageSize) = some e
  reaches : e.Reaches (acc.addr.toNat % pageSize) acc.size acc.writing pa
  value : r = acc.value s.mainMemory pa
  isSome : r.isSome = true
  mainMemory : s'.mainMemory = acc.memory s.mainMemory pa
  frames : s.space.SameFrames s'.space
  memoryMap : s'.memoryMap = s.memoryMap

theorem perform_cases {b : Build} {acc : Access} {r : Option Word}
    (h : acc.perform b s = .ok r s') : (∃ e pa, Performed b acc s s' r e pa) ∨
      b = .vm ∧ r = none ∧ acc.faults s ∧
        moveraMemoria (faultPageOf acc.addr) { s with lastFault := faultPageOf acc.addr } =
          .ok () s' := by
  cases b with
  | plain =>
    cases acc with
    | load a n =>
      obtain ⟨pa, s₁, hplace, h⟩ := EStateM.bind_eq_ok h
      obtain ⟨⟨mmu, htr⟩, hs⟩ := plainPlace_inv hplace
      obtain ⟨ha, -, e, hf, hr⟩ := translate_eq_ok htr
      cases hv : s₁.mainMemory.read pa n with
      | none => simp [hv] at h
      | some v =>
        simp only [EStateM.apply_bind, EStateM.apply_get, hv] at h
        cases h
        rw [hs.mainMemory] at hv
        exact .inl ⟨e, pa, ha, hf, hr, hv.symm, rfl, hs.mainMemory, hs.frames, hs.memoryMap⟩
    | store a n v =>
      obtain ⟨pa, s₁, hplace, h⟩ := EStateM.bind_eq_ok h
      obtain ⟨⟨mmu, htr⟩, hs⟩ := plainPlace_inv hplace
      obtain ⟨ha, -, e, hf, hr⟩ := translate_eq_ok htr
      cases h
      refine .inl ⟨e, pa, ha, hf, hr, rfl, rfl, ?_, hs.frames, hs.memoryMap⟩
      dsimp only
      rw [hs.mainMemory]
      rfl
  | vm =>
    cases acc with
    | load a n =>
      obtain ⟨o, s₁, hserve, h⟩ := EStateM.bind_eq_ok h
      cases o with
      | none =>
        cases h
        obtain ⟨pa, i, hno, -⟩ | ⟨-, hf, -, hm⟩ := translateOrServe_inv hserve
        · cases hno
        · exact .inr ⟨rfl, rfl, hf, hm⟩
      | some pa =>
        obtain ⟨⟨mmu, htr⟩, hs⟩ := translateOrServe_some hserve
        obtain ⟨ha, -, e, hf, hr⟩ := translate_eq_ok htr
        cases hv : s₁.mainMemory.read pa n with
        | none => simp [hv] at h
        | some v =>
          simp only [EStateM.apply_bind, EStateM.apply_get, hv] at h
          cases h
          rw [hs.mainMemory] at hv
          exact .inl ⟨e, pa, ha, hf, hr, hv.symm, rfl, hs.mainMemory, hs.frames, hs.memoryMap⟩
    | store a n v =>
      obtain ⟨went, s₀, hwrite, h⟩ := EStateM.bind_eq_ok h
      obtain ⟨o, s₁, hserve, hwrite⟩ := EStateM.bind_eq_ok hwrite
      cases o with
      | none =>
        cases hwrite
        cases h
        obtain ⟨pa, i, hno, -⟩ | ⟨-, hf, -, hm⟩ := translateOrServe_inv hserve
        · cases hno
        · exact .inr ⟨rfl, rfl, hf, hm⟩
      | some pa =>
        obtain ⟨⟨mmu, htr⟩, hs⟩ := translateOrServe_some hserve
        obtain ⟨ha, -, e, hf, hr⟩ := translate_eq_ok htr
        cases hwrite
        cases h
        refine .inl ⟨e, pa, ha, hf, hr, rfl, rfl, ?_, hs.frames, hs.memoryMap⟩
        dsimp only
        rw [hs.mainMemory]
        rfl

end Perform

namespace Forks

def Shared (n v : ℕ) : Prop := v < n - stackPages

/-- What each thread is to find at an address: the byte that was last stored there, by any thread
below the stack and by the thread itself in the stack. -/
abbrev View := ℕ → ℕ → Option Byte

def noted (known : ℕ → Option Byte) : Access → ℕ → Option Byte
  | .load _ _ => known
  | .store addr size value => fun a =>
    if addr.toNat ≤ a ∧ a < addr.toNat + size then
      some (value.extractLsb' (8 * (a - addr.toNat)) 8)
    else known a

def stored (n : ℕ) (view : View) (j : ℕ) (acc : Access) : View := fun k a =>
  if k = j ∨ a / pageSize < n - stackPages then noted (view k) acc a else view k a

def forked (n : ℕ) (view : View) (j k : ℕ) : View := Function.update view k fun a =>
  if a / pageSize < n - stackPages then view j a else none

inductive Event where
  | access (acc : Access)
  | fork (storage : AddrSpace)
  | switch (next : ℕ)

def access (b : Build) (n : ℕ) (x : System × View) (acc : Access) : Option (System × View) :=
  match x.1.vm with
  | none => none
  | some vm =>
    match acc.perform b vm with
    | .ok r vm' => some (x.1.put vm', if r.isSome then stored n x.2 x.1.current acc else x.2)
    | .error _ _ => none

/-- `Nachos_Fork`: a thread with a copy of the current space. -/
def fork (n : ℕ) (x : System × View) (storage : AddrSpace) : Option (System × View) :=
  match x.1.spaces[x.1.current]? with
  | none => none
  | some a =>
    let (a', memoryMap) := a.copy storage x.1.core.memoryMap
    some ({ x.1 with
      core := { x.1.core with memoryMap := memoryMap }
      spaces := x.1.spaces ++ [a'] }, forked n x.2 x.1.current x.1.spaces.length)

def sized (acc : Access) : Prop := acc.size = 1 ∨ acc.size = 2 ∨ acc.size = 4

instance (acc : Access) : Decidable (sized acc) := inferInstanceAs (Decidable (_ ∨ _))

/-- Without `VM`, `SaveState` looks into `tlb`, which is `NULL`. -/
def step (b : Build) (n : ℕ) (x : System × View) : Event → Option (System × View)
  | .access acc => if sized acc then access b n x acc else none
  | .fork storage => fork n x storage
  | .switch next =>
    match b with
    | .plain => none
    | .vm => (x.1.step (.switch next)).map fun s' => (s', x.2)

def Start (b : Build) (n : ℕ) (x : System × View) : Prop :=
  x.1.current = 0 ∧ x.2 = (fun _ _ => none) ∧ ∃ noffH : NoffHeader, ∃ file : HostFile,
    n = noffH.numPages ∧
    match b with
    | .plain => ∃ mem r, noffH.load file mem (.empty _) = .ok r ∧
        x.1.spaces = [{ AddrSpace.new noffH file with pageTable := r.pageTable }] ∧
        x.1.core.mainMemory = r.mainMemory ∧ x.1.core.memoryMap = r.memoryMap
    | .vm => x.1.spaces = [AddrSpace.new noffH file] ∧ x.1.core.memoryMap = .empty _ ∧
        x.1.core.iter = 0 ∧ x.1.core.lastFault = -1 ∧
        ∀ i, (x.1.core.tlb i).valid = false ∧ (x.1.core.tlb i).dirty = false

def Step (b : Build) (n : ℕ) (x x' : System × View) : Prop := ∃ ev, step b n x ev = some x'

/-- With `VM`: a TLB slot for the page of an access has the frame of the current thread's page; a
page fault is not one of a forked thread, whose `ejecutable` has no value, and is at a page of the
space, which is in memory or gets a frame with an entry in the core map; `SaveState` leaves the
pages in memory valid; in both the TLB names pages of the space. -/
def Meets (b : Build) (s : System) : Event → Prop
  | .access acc => b = .vm → ∀ vm, s.vm = some vm →
      (∀ i, (vm.tlb i).valid = true → (vm.tlb i).virtualPage = (acc.addr.toNat / pageSize : ℕ) →
        ∃ e, vm.space.pageTable[acc.addr.toNat / pageSize]? = some e ∧ e.valid = true ∧
          e.physicalPage = (vm.tlb i).physicalPage) ∧
      (acc.faults vm → vm.space.copied = false ∧ vm.frameFor acc.addr)
  | .fork _ => True
  | .switch _ => ∀ vm, s.vm = some vm → vm.savesFrames

def MeetStep (b : Build) (n : ℕ) (x x' : System × View) : Prop :=
  ∃ ev, Meets b x.1 ev ∧ step b n x ev = some x'

end Forks

end Nachos
