import Nachos.FrameOwnership
import Nachos.ProgramLoading

/-! The frames of address spaces from their construction to their destruction (`addrspace.cc`), in
either build. The copy constructor of the `Fork` system call shares the pages below the last
eight with the space it copies; the destructor clears the frame of every page, shared or not, in
memory or not. With `VM` pages get their frames from `MoveraMemoria`, and context switches save
bits of the TLB. -/
namespace Nachos

inductive Build where
  | plain
  | vm
  deriving DecidableEq, Repr

abbrev stackPages : ℕ := 8

/-- `AddrSpace(AddrSpace *)`: only the page table is set, the other fields have no value. -/
def AddrSpace.copy (a storage : AddrSpace) (memoryMap : BitMap numPhysPages) :
    AddrSpace × BitMap numPhysPages :=
  let shared := a.pageTable.length - stackPages
  let (frames, memoryMap) := memoryMap.finds stackPages
  ({ storage with
    pageTable := a.pageTable.take shared ++
      frames.mapIdx fun i f => residentEntry (shared + i) f
    copied := true }, memoryMap)

def clearFrames : List TranslationEntry → BitMap numPhysPages → Except Trap (BitMap numPhysPages)
  | [], memoryMap => .ok memoryMap
  | e :: es, memoryMap => do
    let memoryMap ← memoryMap.clear e.physicalPage
    clearFrames es memoryMap

structure Life where
  core : Core
  spaces : ℕ → Option AddrSpace

namespace Life

inductive Event where
  | create (j : ℕ) (noffH : NoffHeader) (executable : HostFile)
  | copy (i j : ℕ) (storage : AddrSpace)
  | destroy (j : ℕ)
  | fault (j vpn : ℕ)
  | saveState (j : ℕ)

def put (s : Life) (j : ℕ) (a : Option AddrSpace) (memoryMap : BitMap numPhysPages) : Life :=
  { core := { s.core with memoryMap := memoryMap }, spaces := Function.update s.spaces j a }

def create (s : Life) (j : ℕ) (noffH : NoffHeader) (executable : HostFile) : Build → Option Life
  | .vm => some (s.put j (some (.new noffH executable)) s.core.memoryMap)
  | .plain =>
    match noffH.load executable s.core.mainMemory s.core.memoryMap with
    | .ok r =>
      some { core := { s.core with mainMemory := r.mainMemory, memoryMap := r.memoryMap }
             spaces := Function.update s.spaces j
               (some { AddrSpace.new noffH executable with pageTable := r.pageTable }) }
    | .error _ => none

/-- Kernel code of the `VM` build on behalf of space `j`. -/
def run (s : Life) (j : ℕ) (k : Kernel Unit) : Build → Option Life
  | .plain => none
  | .vm =>
    match s.spaces j with
    | none => none
    | some a =>
      match k { s.core with space := a } with
      | .ok _ vm => some { core := vm.toCore, spaces := Function.update s.spaces j (some vm.space) }
      | .error _ _ => none

def step (b : Build) (s : Life) : Event → Option Life
  | .create j noffH executable =>
    if s.spaces j = none then s.create j noffH executable b else none
  | .copy i j storage =>
    match s.spaces i, s.spaces j with
    | some a, none =>
      let (a', memoryMap) := a.copy storage s.core.memoryMap
      some (s.put j (some a') memoryMap)
    | _, _ => none
  | .destroy j =>
    match s.spaces j with
    | none => none
    | some a =>
      match clearFrames a.pageTable s.core.memoryMap with
      | .ok memoryMap => some (s.put j none memoryMap)
      | .error _ => none
  | .fault j vpn => s.run j (moveraMemoria vpn) b
  | .saveState j => s.run j saveState b

def Init (s : Life) : Prop := (∀ j, s.spaces j = none) ∧ s.core.memoryMap = .empty _

def Step (b : Build) (s s' : Life) : Prop := ∃ ev, s.step b ev = some s'

def has (s : Life) (j : ℕ) (e : TranslationEntry) : Prop :=
  ∃ a, s.spaces j = some a ∧ e ∈ a.pageTable

def holds (s : Life) (j f : ℕ) : Prop := ∃ e, s.has j e ∧ e.valid = true ∧ e.physicalPage = f

/-- A constructor finds the frames it asks for, and its copy loops stay in the page table; a page
fault is one of a space that is no copy, at a page of the space, which is in memory or gets a frame
with an entry in the core map; `SaveState` leaves the pages in memory valid; in both the TLB names
pages of the space; and a space is destroyed when all its pages are in memory and no other live
space has one of its frames. -/
def Meets (b : Build) (s : Life) : Event → Prop
  | .create _ noffH _ => b = .plain → noffH.numPages ≤ s.core.memoryMap.numClear ∧
      noffH.numPages2 ≤ noffH.numPages ∧ noffH.numPages3 ≤ noffH.numPages
  | .copy _ _ _ => stackPages ≤ s.core.memoryMap.numClear
  | .destroy j => (∀ e, s.has j e → e.valid = true ∧ e.physicalPage ≠ -1) ∧
      ∀ f, s.holds j f → ∀ i, s.holds i f → i = j
  | .fault j vpn => ∀ a, s.spaces j = some a → a.copied = false ∧
      Vm.frameForPage { s.core with space := a } vpn
  | .saveState j => ∀ a, s.spaces j = some a → Vm.savesFrames { s.core with space := a }

def MeetStep (b : Build) (s s' : Life) : Prop := ∃ ev, s.Meets b ev ∧ s.step b ev = some s'

/-- Pages with a frame are in memory and their frames are marked, and a marked frame belongs to a
live space. -/
structure Accounted (s : Life) : Prop where
  frame : ∀ j e, s.has j e → e.physicalPage ≠ -1 → e.valid = true ∧
    ∃ f < numPhysPages, e.physicalPage = (f : ℕ) ∧ s.core.memoryMap.bit f = true
  marked : ∀ f < numPhysPages, s.core.memoryMap.bit f = true → ∃ j, s.holds j f

variable {s s' : Life} {b : Build}

theorem accounted_init (h : s.Init) : s.Accounted := by
  obtain ⟨hs, hm⟩ := h
  refine ⟨?_, fun f _ hf => ?_⟩
  · rintro j e ⟨a, ha, -⟩
    rw [hs] at ha
    cases ha
  · rw [hm, BitMap.bit_empty] at hf
    cases hf

theorem has_update {core : Core} {j i : ℕ} {o : Option AddrSpace} {e : TranslationEntry} :
    has { core := core, spaces := Function.update s.spaces j o } i e ↔
      (i = j ∧ ∃ a, o = some a ∧ e ∈ a.pageTable) ∨ (i ≠ j ∧ s.has i e) := by
  unfold has
  by_cases hi : i = j
  · subst hi
    simp
  · simp [hi]

theorem Accounted.absent (h : s.Accounted) {j : ℕ} {e : TranslationEntry} (he : s.has j e)
    (hv : e.valid = false) : e.physicalPage = -1 := by
  by_contra hp
  rw [(h.frame j e he hp).1] at hv
  cases hv

/-- A space is new, or its page table changes: its pages in memory are in frames of a space
before, or in frames that were free. -/
theorem Accounted.change (h : s.Accounted) {core : Core} {j : ℕ} {a : AddrSpace} (frames : List ℕ)
    (hbit : ∀ f, core.memoryMap.bit f = (s.core.memoryMap.bit f || decide (f ∈ frames)))
    (hlt : ∀ f ∈ frames, f < numPhysPages)
    (hall : ∀ f ∈ frames, ∃ e ∈ a.pageTable, e.valid = true ∧ e.physicalPage = (f : ℕ))
    (hkeep : ∀ e, s.has j e → e.valid = true → e.physicalPage ≠ -1 →
      ∃ e' ∈ a.pageTable, e'.valid = true ∧ e'.physicalPage = e.physicalPage)
    (hnew : ∀ e ∈ a.pageTable, (∃ i e', s.has i e' ∧ e.claim = e'.claim) ∨
      e.physicalPage = -1 ∨ e.valid = true ∧ ∃ f ∈ frames, e.physicalPage = (f : ℕ)) :
    Accounted { core := core, spaces := Function.update s.spaces j (some a) } := by
  have hframe : ∀ i e, s.has i e → e.physicalPage ≠ -1 → e.valid = true ∧
      ∃ f < numPhysPages, e.physicalPage = (f : ℕ) ∧ core.memoryMap.bit f = true := by
    intro i e he hne
    obtain ⟨hv, f, hf, hp, hm⟩ := h.frame i e he hne
    exact ⟨hv, f, hf, hp, by rw [hbit, hm, Bool.true_or]⟩
  refine ⟨fun i e he hne => ?_, fun f hf hm => ?_⟩
  · obtain ⟨rfl, a', ha', hmem⟩ | ⟨-, he⟩ := has_update.mp he
    · obtain rfl := Option.some.inj ha'
      obtain ⟨k, e', he', hce⟩ | hp | ⟨hval, f, hf, hp⟩ := hnew e hmem
      · obtain ⟨hpp, hval⟩ := claim_eq hce
        rw [hpp] at hne
        rw [hpp, hval hne]
        exact hframe k e' he' hne
      · exact absurd hp hne
      · exact ⟨hval, f, hlt f hf, hp, by rw [hbit, decide_eq_true hf, Bool.or_true]⟩
    · exact hframe i e he hne
  · have hself : ∀ e ∈ a.pageTable, e.valid = true → e.physicalPage = (f : ℕ) →
        ∃ i, holds { core := core, spaces := Function.update s.spaces j (some a) } i f :=
      fun e he hv hp => ⟨j, e, has_update.mpr (.inl ⟨rfl, a, rfl, he⟩), hv, hp⟩
    rw [hbit, Bool.or_eq_true, decide_eq_true_eq] at hm
    obtain hm | hm := hm
    · obtain ⟨i, e, he, hv, hp⟩ := h.marked f hf hm
      by_cases hi : i = j
      · obtain ⟨e', he', hv', hp'⟩ := hkeep e (hi ▸ he) hv (by omega)
        exact hself e' he' hv' (hp'.trans hp)
      · exact ⟨i, e, has_update.mpr (.inr ⟨hi, he⟩), hv, hp⟩
    · obtain ⟨e, he, hv, hp⟩ := hall f hm
      exact hself e he hv hp

theorem not_has_of_none {j : ℕ} (hj : s.spaces j = none) (e : TranslationEntry) : ¬s.has j e := by
  rintro ⟨a, ha, -⟩
  rw [hj] at ha
  cases ha

theorem load_frames {noffH : NoffHeader} {file : HostFile} {mem : Memory}
    {memoryMap : BitMap numPhysPages} {r : Loaded} (h : noffH.load file mem memoryMap = .ok r) :
    r.pageTable = (memoryMap.finds noffH.numPages).1.mapIdx residentEntry ∧
      r.memoryMap = (memoryMap.finds noffH.numPages).2 := by
  unfold NoffHeader.load at h
  split_ifs at h
  obtain ⟨mem₁, -, h⟩ := except_bind_eq_ok h
  obtain ⟨mem₂, -, h⟩ := except_bind_eq_ok h
  obtain rfl := Except.ok.inj h
  exact ⟨rfl, rfl⟩

theorem mem_resident {frames : List ℕ} {shared : ℕ} {e : TranslationEntry} :
    e ∈ ((frames.map Nat.cast : List ℤ).mapIdx fun i f => residentEntry (shared + i) f) →
      e.valid = true ∧ ∃ f ∈ frames, e.physicalPage = (f : ℕ) := by
  intro he
  obtain ⟨i, hi, rfl⟩ := List.mem_mapIdx.mp he
  rw [List.length_map] at hi
  refine ⟨rfl, frames.get ⟨i, hi⟩, List.get_mem _ _, ?_⟩
  simp [residentEntry]

theorem resident_mem {frames : List ℕ} {shared f : ℕ} (hf : f ∈ frames) :
    ∃ e ∈ ((frames.map Nat.cast : List ℤ).mapIdx fun i f => residentEntry (shared + i) f),
      e.valid = true ∧ e.physicalPage = (f : ℕ) := by
  obtain ⟨i, hi, rfl⟩ := List.getElem_of_mem hf
  refine ⟨residentEntry (shared + i) frames[i], List.mem_mapIdx.mpr ⟨i, by simpa using hi, ?_⟩, rfl,
    rfl⟩
  rw [List.getElem_map]

theorem Accounted.create (h : s.Accounted) {j : ℕ} {noffH : NoffHeader} {executable : HostFile}
    (hj : s.spaces j = none) (hm : s.Meets b (.create j noffH executable))
    (hs : s.create j noffH executable b = some s') : s'.Accounted := by
  cases b with
  | vm =>
    obtain rfl := Option.some.inj hs
    refine h.change [] (by simp) (by simp) (by simp)
      (fun e he => absurd he (not_has_of_none hj e)) fun e he => ?_
    obtain ⟨i, hi⟩ := List.getElem?_of_mem he
    rw [new_getElem? hi]
    exact .inr (.inl rfl)
  | plain =>
    rw [Life.create] at hs
    cases hr : noffH.load executable s.core.mainMemory s.core.memoryMap with
    | error t =>
      rw [hr] at hs
      cases hs
    | ok r =>
      rw [hr] at hs
      obtain rfl := Option.some.inj hs
      obtain ⟨htable, hmap⟩ := load_frames hr
      obtain ⟨frames, -, -, hfree, hfinds, hbit⟩ := BitMap.finds_ok (hm rfl).1
      have htable : r.pageTable = (frames.map Nat.cast : List ℤ).mapIdx fun i f =>
          residentEntry (0 + i) f := by
        simp only [htable, hfinds, Nat.zero_add]
      refine h.change frames ?_ (fun f hf => (hfree f hf).1) ?_
        (fun e he => absurd he (not_has_of_none hj e)) ?_
      · intro f
        dsimp only
        rw [hmap]
        exact hbit f
      · intro f hf
        dsimp only
        rw [htable]
        exact resident_mem hf
      · intro e he
        dsimp only at he
        rw [htable] at he
        exact .inr (.inr (mem_resident he))

theorem Accounted.copy (h : s.Accounted) {i j : ℕ} {a storage : AddrSpace}
    (hi : s.spaces i = some a) (hj : s.spaces j = none)
    (hm : stackPages ≤ s.core.memoryMap.numClear) :
    (s.put j (some (a.copy storage s.core.memoryMap).1)
      (a.copy storage s.core.memoryMap).2).Accounted := by
  obtain ⟨frames, -, -, hfree, hfinds, hbit⟩ := BitMap.finds_ok hm
  have htable : (a.copy storage s.core.memoryMap).1.pageTable =
      a.pageTable.take (a.pageTable.length - stackPages) ++
        ((frames.map Nat.cast : List ℤ).mapIdx fun i f =>
          residentEntry (a.pageTable.length - stackPages + i) f) := by
    simp only [AddrSpace.copy, hfinds]
  refine h.change frames hbit (fun f hf => (hfree f hf).1) (fun f hf => ?_)
    (fun e he => absurd he (not_has_of_none hj e)) fun e he => ?_
  · obtain ⟨e, he, hv⟩ := resident_mem hf
    refine ⟨e, ?_, hv⟩
    rw [htable]
    exact List.mem_append_right _ he
  · rw [htable, List.mem_append] at he
    obtain he | he := he
    · exact .inl ⟨i, e, ⟨a, hi, List.mem_of_mem_take he⟩, rfl⟩
    · exact .inr (.inr (mem_resident he))

theorem clearFrames_ok {es : List TranslationEntry} (memoryMap : BitMap numPhysPages)
    (h : ∀ e ∈ es, ∃ f < numPhysPages, e.physicalPage = (f : ℕ)) :
    ∃ memoryMap', clearFrames es memoryMap = .ok memoryMap' ∧ ∀ f : ℕ, memoryMap'.bit f =
      (memoryMap.bit f && decide (∀ e ∈ es, e.physicalPage ≠ (f : ℕ))) := by
  induction es generalizing memoryMap with
  | nil => exact ⟨memoryMap, rfl, by simp⟩
  | cons e es ih =>
    obtain ⟨g, hg, hp⟩ := h e List.mem_cons_self
    obtain ⟨memoryMap', hrun, hbit⟩ := ih (memoryMap.clearBit g)
      fun e he => h e (List.mem_cons_of_mem _ he)
    refine ⟨memoryMap', ?_, fun f => ?_⟩
    · rw [clearFrames, hp, BitMap.clear_ok _ hg]
      exact hrun
    · rw [hbit, BitMap.bit_clearBit _ hg]
      simp only [List.forall_mem_cons, hp, Bool.decide_and, ne_eq, Nat.cast_inj]
      rw [show (decide ¬f = g) = decide ¬g = f by simp [eq_comm], Bool.and_comm (decide _),
        Bool.and_assoc]

theorem destroy_ok (h : s.Accounted) {j : ℕ} {a : AddrSpace} (hj : s.spaces j = some a)
    (hm : s.Meets b (.destroy j)) :
    ∃ memoryMap, clearFrames a.pageTable s.core.memoryMap = .ok memoryMap ∧
      s.step b (.destroy j) = some (s.put j none memoryMap) ∧
      (s.put j none memoryMap).Accounted := by
  obtain ⟨hvalid, hshared⟩ := hm
  have hframe : ∀ e ∈ a.pageTable, ∃ f < numPhysPages, e.physicalPage = (f : ℕ) := by
    intro e he
    obtain ⟨-, f, hf, hp, -⟩ := h.frame j e ⟨a, hj, he⟩ (hvalid e ⟨a, hj, he⟩).2
    exact ⟨f, hf, hp⟩
  obtain ⟨memoryMap, hclear, hbit⟩ := clearFrames_ok s.core.memoryMap hframe
  refine ⟨memoryMap, hclear, by simp only [step, hj, hclear], ?_⟩
  have hhas : ∀ i e, (s.put j none memoryMap).has i e → i ≠ j ∧ s.has i e := by
    intro i e he
    obtain ⟨-, a', ha', -⟩ | he := has_update.mp he
    · cases ha'
    · exact he
  refine ⟨fun i e he hne => ?_, fun f hf hb => ?_⟩
  · obtain ⟨hij, he⟩ := hhas i e he
    obtain ⟨hv, f, hf, hp, hb⟩ := h.frame i e he hne
    refine ⟨hv, f, hf, hp, ?_⟩
    change memoryMap.bit f = true
    rw [hbit, hb, Bool.true_and, decide_eq_true_eq]
    intro e' he' hp'
    exact hij (hshared f ⟨e', ⟨a, hj, he'⟩, (hvalid e' ⟨a, hj, he'⟩).1, hp'⟩ i ⟨e, he, hv, hp⟩)
  · change memoryMap.bit f = true at hb
    rw [hbit, Bool.and_eq_true, decide_eq_true_eq] at hb
    obtain ⟨i, e, he, hv, hp⟩ := h.marked f hf hb.1
    have hij : i ≠ j := by
      rintro rfl
      obtain ⟨a', ha', he⟩ := he
      rw [hj] at ha'
      obtain rfl := Option.some.inj ha'
      exact hb.2 e he hp
    exact ⟨i, e, has_update.mpr (.inr ⟨hij, he⟩), hv, hp⟩

theorem run_inv {j : ℕ} {k : Kernel Unit} (h : s.run j k b = some s') :
    ∃ a vm, s.spaces j = some a ∧ k { s.core with space := a } = .ok () vm ∧
      s' = { core := vm.toCore, spaces := Function.update s.spaces j (some vm.space) } := by
  cases b with
  | plain => cases h
  | vm =>
    rw [run] at h
    cases ha : s.spaces j with
    | none =>
      rw [ha] at h
      cases h
    | some a =>
      rw [ha] at h
      dsimp only at h
      cases hk : k { s.core with space := a } with
      | error t vm =>
        rw [hk] at h
        cases h
      | ok u vm =>
        rw [hk] at h
        exact ⟨a, vm, rfl, hk, (Option.some.inj h).symm⟩

theorem same_entry {p p' : List TranslationEntry}
    (hp : ∀ v : ℕ, (p'[v]?).map TranslationEntry.claim = (p[v]?).map TranslationEntry.claim)
    {e' : TranslationEntry} (he : e' ∈ p') : ∃ e ∈ p, e'.claim = e.claim := by
  obtain ⟨v, hv⟩ := List.getElem?_of_mem he
  have hmap := hp v
  rw [hv, Option.map_some] at hmap
  obtain ⟨e, he, hclaim⟩ := Option.map_eq_some_iff.mp hmap.symm
  exact ⟨e, List.mem_of_getElem? he, hclaim.symm⟩

theorem Accounted.same (h : s.Accounted) {core : Core} {j : ℕ} {a a' : AddrSpace}
    (hj : s.spaces j = some a) (hm : core.memoryMap = s.core.memoryMap)
    (he : ∀ v : ℕ, (a'.pageTable[v]?).map TranslationEntry.claim =
      (a.pageTable[v]?).map TranslationEntry.claim) :
    Accounted { core := core, spaces := Function.update s.spaces j (some a') } := by
  refine h.change [] (fun f => by simp [hm]) (by simp) (by simp) ?_ fun e hmem => ?_
  · rintro e ⟨a₀, ha₀, hmem⟩ hv hne
    rw [hj] at ha₀
    obtain rfl := Option.some.inj ha₀
    obtain ⟨e', he', hclaim⟩ := same_entry (fun v => (he v).symm) hmem
    obtain ⟨hpp, hval⟩ := claim_eq hclaim.symm
    exact ⟨e', he', (hval hne).trans hv, hpp⟩
  · obtain ⟨e₀, he₀, hclaim⟩ := same_entry he hmem
    exact .inl ⟨j, e₀, ⟨a, hj, he₀⟩, hclaim⟩

theorem Accounted.loaded (h : s.Accounted) {j n : ℕ} {a : AddrSpace} {e : TranslationEntry}
    {f : Fin numPhysPages} (hj : s.spaces j = some a) (he : a.pageTable[n]? = some e)
    (hv : e.valid = false) :
    let vm := Vm.loaded { s.core with space := a } n f
    Accounted { core := vm.toCore, spaces := Function.update s.spaces j (some vm.space) } := by
  intro vm
  have hlt : n < (a.synced s.core.tlb).pageTable.length := by
    have := (List.getElem?_eq_some_iff.mp he).1
    simpa [AddrSpace.synced] using this
  have htable : vm.space.pageTable = (a.synced s.core.tlb).pageTable.set n (a.freshEntry n f) := rfl
  refine h.change [f.val] (fun g => ?_) (by simp) ?_ ?_ fun e' hmem => ?_
  · change (s.core.memoryMap.setBit f).bit g = _
    simp [BitMap.bit_setBit _ f.isLt, Bool.or_comm]
  · intro g hg
    obtain rfl := List.mem_singleton.mp hg
    exact ⟨a.freshEntry n f, htable ▸ List.mem_set hlt _, rfl, rfl⟩
  · rintro e' ⟨a₀, ha₀, hmem⟩ hval -
    rw [hj] at ha₀
    obtain rfl := Option.some.inj ha₀
    obtain ⟨v, hv'⟩ := List.getElem?_of_mem hmem
    have hvn : n ≠ v := by
      rintro rfl
      rw [he, Option.some.injEq] at hv'
      rw [← hv', hv] at hval
      cases hval
    obtain ⟨hval', hp', -⟩ := syncEntry_valid s.core.tlb v e'
    refine ⟨syncEntry s.core.tlb v e', ?_, hval'.trans hval, hp'⟩
    rw [htable]
    refine List.mem_of_getElem? (i := v) ?_
    rw [List.getElem?_set_ne hvn, synced_getElem?, hv', Option.map_some]
  · rw [htable] at hmem
    obtain hmem | rfl := List.mem_or_eq_of_mem_set hmem
    · obtain ⟨e₀, he₀, hclaim⟩ :=
        same_entry (fun v => map_claim (synced_map a s.core.tlb v)) hmem
      exact .inl ⟨j, e₀, ⟨a, hj, he₀⟩, hclaim⟩
    · exact .inr (.inr ⟨rfl, f, List.mem_singleton_self _, rfl⟩)

theorem Accounted.fault (h : s.Accounted) {j vpn : ℕ} (hm : s.Meets b (.fault j vpn))
    (hs : s.run j (moveraMemoria vpn) b = some s') : s'.Accounted := by
  obtain ⟨a, vm, hj, hrun, rfl⟩ := run_inv hs
  have habs : ∀ e, a.pageTable[vpn]? = some e → e.valid = false → e.physicalPage = -1 :=
    fun e he => h.absent ⟨a, hj, List.mem_of_getElem? he⟩
  obtain ⟨e, he, ⟨-, rfl⟩ | ⟨hv, f, -, -, rfl⟩⟩ := moveraMemoria_served hrun (hm a hj).2 habs
  · exact h.same hj rfl fun v => map_claim (synced_map a s.core.tlb v)
  · exact h.loaded hj he hv

theorem Accounted.saveState (h : s.Accounted) {j : ℕ} (hm : s.Meets b (.saveState j))
    (hs : s.run j Nachos.saveState b = some s') : s'.Accounted := by
  obtain ⟨a, vm, hj, hrun, rfl⟩ := run_inv hs
  obtain ⟨-, rfl⟩ := saveState_inv hrun
  refine h.same hj rfl fun v => ?_
  simp only [Vm.withPages, List.getElem?_mapIdx]
  cases he : a.pageTable[v]? with
  | none => rfl
  | some e =>
    have hclaim := saveEntry_claim (hm a hj) he fun hne => by
      obtain ⟨hv, f, -, hp, -⟩ := h.frame j e ⟨a, hj, List.mem_of_getElem? he⟩ hne
      exact ⟨hv, by omega⟩
    exact congrArg some hclaim

theorem Accounted.step {ev : Event} (h : s.Accounted) (hm : s.Meets b ev)
    (hs : s.step b ev = some s') : s'.Accounted := by
  cases ev with
  | create j noffH executable =>
    rw [Life.step] at hs
    split_ifs at hs with hj
    exact h.create hj hm hs
  | copy i j storage =>
    rw [Life.step] at hs
    split at hs
    · rename_i a hi hj
      obtain rfl := Option.some.inj hs
      exact h.copy hi hj hm
    · cases hs
  | destroy j =>
    cases hj : s.spaces j with
    | none =>
      rw [Life.step, hj] at hs
      cases hs
    | some a =>
      obtain ⟨memoryMap, -, hstep, hacc⟩ := destroy_ok h hj hm
      obtain rfl := Option.some.inj (hstep.symm.trans hs)
      exact hacc
  | fault j vpn => exact h.fault hm hs
  | saveState j => exact h.saveState hm hs

/-- In every run whose steps meet the condition, a frame is marked exactly when a live space has a
page in it, and every `ASSERT` of a destructor holds. -/
theorem frames_accounted (h : Reachable Init (MeetStep b) s) :
    (∀ f < numPhysPages, s.core.memoryMap.bit f = true ↔ ∃ j, s.holds j f) ∧
      ∀ j a, s.spaces j = some a → s.Meets b (.destroy j) →
        ∃ memoryMap, clearFrames a.pageTable s.core.memoryMap = .ok memoryMap := by
  have hacc : s.Accounted := by
    refine h.invariant (fun _ => accounted_init) ?_
    rintro s s' hi ⟨ev, hm, hs⟩
    exact hi.step hm hs
  refine ⟨fun f hf => ⟨hacc.marked f hf, ?_⟩, fun j a hj hm => ?_⟩
  · rintro ⟨j, e, he, hv, hp⟩
    obtain ⟨-, g, -, hg, hb⟩ := hacc.frame j e he (by omega)
    obtain rfl : f = g := by exact_mod_cast hp.symm.trans hg
    exact hb
  · obtain ⟨memoryMap, hclear, -⟩ := destroy_ok hacc hj hm
    exact ⟨memoryMap, hclear⟩

def bootLife : Life where
  core := bootVm.toCore
  spaces := fun _ => none

theorem init_bootLife : bootLife.Init := ⟨fun _ => rfl, rfl⟩

theorem create_spaces {j : ℕ} {noffH : NoffHeader} {executable : HostFile}
    (h : s.create j noffH executable b = some s') {i : ℕ} (hi : i ≠ j) :
    s'.spaces i = s.spaces i := by
  cases b with
  | vm =>
    obtain rfl := Option.some.inj h
    exact Function.update_of_ne hi _ _
  | plain =>
    rw [Life.create] at h
    split at h
    · obtain rfl := Option.some.inj h
      exact Function.update_of_ne hi _ _
    · cases h

theorem meets_destroy {j : ℕ}
    (hv : (s.spaces j).all (fun a => a.pageTable.all fun e => e.valid &&
      decide (e.physicalPage ≠ -1)) = true)
    (hi : ∀ i, i ≠ j → s.spaces i = none) : s.Meets b (.destroy j) := by
  refine ⟨?_, fun f _ i hf => ?_⟩
  · rintro e ⟨a, ha, he⟩
    rw [ha, Option.all_some, List.all_eq_true] at hv
    simpa using hv e he
  · by_contra hij
    obtain ⟨e, he, -⟩ := hf
    exact not_has_of_none (hi i hij) e he

theorem smallProgram_accounted : ∃ s s', bootLife.step .plain (.create 0 smallProgram smallFile) =
      some s ∧ s.step .plain (.destroy 0) = some s' ∧ s.core.memoryMap.bit 8 = true ∧
      s'.core.memoryMap.bit 8 = false ∧
      (∀ f < numPhysPages, s.core.memoryMap.bit f = true ↔ ∃ j, s.holds j f) ∧
      ∀ f < numPhysPages, s'.core.memoryMap.bit f = true ↔ ∃ j, s'.holds j f := by
  have hrun : (bootLife.step .plain (.create 0 smallProgram smallFile)).any (fun s : Life =>
      s.core.memoryMap.bit 8 && (s.spaces 0).all (fun a => a.pageTable.all fun e => e.valid &&
        decide (e.physicalPage ≠ -1)) &&
        (s.step .plain (.destroy 0)).any fun s' : Life => !s'.core.memoryMap.bit 8) = true := by
    decide +kernel
  obtain ⟨s, hs, hx⟩ := (Option.any_eq_true _ _).mp hrun
  rw [Bool.and_eq_true, Bool.and_eq_true] at hx
  obtain ⟨⟨hmark, hvalid⟩, hx⟩ := hx
  obtain ⟨s', hs', hfree⟩ := (Option.any_eq_true _ _).mp hx
  rw [Bool.not_eq_true'] at hfree
  have hcreate := hs
  rw [Life.step, if_pos (init_bootLife.1 0)] at hcreate
  have hnone : ∀ i, i ≠ 0 → s.spaces i = none := fun i hi => create_spaces hcreate hi
  have hfits : bootLife.Meets .plain (.create 0 smallProgram smallFile) := fun _ => by decide
  have hreach : Reachable Init (MeetStep .plain) s :=
    (Reachable.init init_bootLife).step ⟨_, hfits, hs⟩
  have hreach' : Reachable Init (MeetStep .plain) s' :=
    hreach.step ⟨_, meets_destroy hvalid hnone, hs'⟩
  exact ⟨s, s', hs, hs', hmark, hfree, (frames_accounted hreach).1, (frames_accounted hreach').1⟩

theorem reachable_bootLife {evs : List Event} (h : evs.foldlM (step b) bootLife = some s) :
    Reachable Init (Step b) s :=
  Reachable.of_foldlM (fun _ ev _ h => ⟨ev, h⟩) (.init init_bootLife) h

/-- The destruction of a copy frees the page it shares with the space it was copied from, and with
`VM` a page that never was in memory makes `Clear` fail. -/
theorem destroy_frees_shared :
    (∃ s, Reachable Init (Step .plain) s ∧ s.holds 0 0 ∧ s.core.memoryMap.bit 0 = false) ∧
      ∃ s a, Reachable Init (Step .vm) s ∧ s.spaces 0 = some a ∧
        ∀ memoryMap, clearFrames a.pageTable s.core.memoryMap ≠ .ok memoryMap := by
  constructor
  · have hrun : (([.create 0 smallProgram smallFile, .copy 0 1 (.new smallProgram smallFile),
        .destroy 1] : List Event).foldlM (step .plain) bootLife).any (fun s : Life =>
        !s.core.memoryMap.bit 0 && (s.spaces 0).any fun a => a.pageTable.any fun e =>
          e.valid && decide (e.physicalPage = (0 : ℕ))) = true := by decide +kernel
    obtain ⟨s, hs, hx⟩ := (Option.any_eq_true _ _).mp hrun
    rw [Bool.and_eq_true, Bool.not_eq_true'] at hx
    obtain ⟨hfree, hx⟩ := hx
    obtain ⟨a, ha, hx⟩ := (Option.any_eq_true _ _).mp hx
    obtain ⟨e, he, hx⟩ := List.any_eq_true.mp hx
    rw [Bool.and_eq_true, decide_eq_true_eq] at hx
    exact ⟨s, reachable_bootLife hs, ⟨e, ⟨a, ha, he⟩, hx⟩, hfree⟩
  · have hrun : (([.create 0 smallProgram smallFile] : List Event).foldlM (step .vm) bootLife).any
        (fun s : Life => (s.spaces 0).any fun a =>
          !(clearFrames a.pageTable s.core.memoryMap).isOk) = true := by decide +kernel
    obtain ⟨s, hs, hx⟩ := (Option.any_eq_true _ _).mp hrun
    obtain ⟨a, ha, hx⟩ := (Option.any_eq_true _ _).mp hx
    refine ⟨s, a, reachable_bootLife hs, ha, fun memoryMap hclear => ?_⟩
    rw [hclear] at hx
    cases hx

end Life

end Nachos
