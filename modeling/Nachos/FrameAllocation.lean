import Nachos.SpaceLife

/-! How the constructors of `AddrSpace` without `VM` get their frames (`addrspace.cc`), with the
memory and the frame map as a failing constructor leaves them. `Find` answers -1 when no bit is
clear; the constructors take the answer as a frame. -/
namespace Nachos

structure Frames where
  mainMemory : Memory
  memoryMap : BitMap numPhysPages

def findFrames (n : ℕ) : EStateM Trap Frames (List ℤ) := do
  let s ← get
  set { s with memoryMap := (s.memoryMap.finds n).2 }
  return (s.memoryMap.finds n).1

def loadPages (pageTable : List TranslationEntry) (file : HostFile) :
    ℕ → ℕ → ℕ → EStateM Trap Frames Unit
  | 0, _, _ => return ()
  | n + 1, j, position => do
    let s ← get
    match readPage pageTable file j position s.mainMemory with
    | .error t => throw t
    | .ok mem =>
      set { s with mainMemory := mem }
      loadPages pageTable file n (j + 1) (position + pageSize)

/-- `AddrSpace(OpenFile *, const char *)`. -/
def NoffHeader.construct (h : NoffHeader) (file : HostFile) :
    EStateM Trap Frames (List TranslationEntry) := do
  if h.numPages ≤ numPhysPages then
    let frames ← findFrames h.numPages
    let pageTable := frames.mapIdx residentEntry
    loadPages pageTable file h.numPages2 0 h.code.inFileAddr
    loadPages pageTable file (h.numPages3 - h.numPages2) h.numPages2 h.initData.inFileAddr
    return pageTable
  else throw .assertion

/-- `AddrSpace(AddrSpace *)`. -/
def AddrSpace.construct (a storage : AddrSpace) : EStateM Trap Frames (List TranslationEntry) := do
  let s ← get
  set { s with memoryMap := (a.copy storage s.memoryMap).2 }
  return (a.copy storage s.memoryMap).1.pageTable

structure FreshFrames (memoryMap : BitMap numPhysPages)
    (entries : List TranslationEntry) : Prop where
  free : ∀ e ∈ entries, ∃ f : ℕ, e.physicalPage = f ∧ f < numPhysPages ∧ memoryMap.bit f = false
  apart : (entries.map (·.physicalPage)).Nodup

/-- A constructor whose pages from `shared` on are new, `need` of them: they get fresh frames, and
without enough free frames the constructor is refused before it changes anything. -/
structure AllocatesSafely (x : EStateM Trap Frames (List TranslationEntry)) (shared need : ℕ)
    (s : Frames) : Prop where
  completed : ∀ pageTable s', x s = .ok pageTable s' →
    FreshFrames s.memoryMap (pageTable.drop shared)
  refused : s.memoryMap.numClear < need → x s = .error .assertion s

variable {h : NoffHeader} {file : HostFile} {s s' : Frames} {pageTable : List TranslationEntry}

theorem readPage_error {mem : Memory} {j position : ℕ} {t : Trap}
    (hr : readPage pageTable file j position mem = .error t) : t = .memory := by
  unfold readPage at hr
  split at hr
  · cases hr
    rfl
  · split_ifs at hr
    cases hr
    rfl

theorem loadPages_error {n j position : ℕ} {t : Trap}
    (hl : loadPages pageTable file n j position s = .error t s') : t = .memory := by
  induction n generalizing j position s with
  | zero => cases hl
  | succ n ih =>
    simp only [loadPages, EStateM.apply_bind, EStateM.apply_get] at hl
    cases hr : readPage pageTable file j position s.mainMemory with
    | error t' =>
      rw [hr] at hl
      cases hl
      exact readPage_error hr
    | ok mem =>
      rw [hr] at hl
      exact ih hl

theorem loadPages_eq (pageTable : List TranslationEntry) (file : HostFile) (n j position : ℕ)
    (s : Frames) :
    match loadPages pageTable file n j position s with
    | .ok _ s' => copyPages pageTable file n j position s.mainMemory = .ok s'.mainMemory ∧
        s'.memoryMap = s.memoryMap
    | .error t _ => copyPages pageTable file n j position s.mainMemory = .error t := by
  induction n generalizing j position s with
  | zero => exact ⟨rfl, rfl⟩
  | succ n ih =>
    simp only [loadPages, copyPages, EStateM.apply_bind, EStateM.apply_get]
    cases hr : readPage pageTable file j position s.mainMemory with
    | error t => rfl
    | ok mem => exact ih (j + 1) (position + pageSize) { s with mainMemory := mem }

/-- The constructor is `load`, with the state kept when it fails. -/
theorem construct_eq (h : NoffHeader) (file : HostFile) (s : Frames) :
    h.load file s.mainMemory s.memoryMap =
      match h.construct file s with
      | .ok pageTable s' => .ok ⟨pageTable, s'.mainMemory, s'.memoryMap⟩
      | .error t _ => .error t := by
  unfold NoffHeader.load NoffHeader.construct
  by_cases hp : h.numPages ≤ numPhysPages
  · simp only [if_pos hp, findFrames, EStateM.apply_bind, EStateM.apply_get, EStateM.apply_set,
      EStateM.apply_pure]
    have h₁ := loadPages_eq ((s.memoryMap.finds h.numPages).1.mapIdx residentEntry) file h.numPages2
      0 h.code.inFileAddr { s with memoryMap := (s.memoryMap.finds h.numPages).2 }
    cases hl₁ : loadPages ((s.memoryMap.finds h.numPages).1.mapIdx residentEntry) file h.numPages2 0
        h.code.inFileAddr { s with memoryMap := (s.memoryMap.finds h.numPages).2 } with
    | error t s₁ =>
      rw [hl₁] at h₁
      dsimp only at h₁ ⊢
      rw [h₁]
      rfl
    | ok _ s₁ =>
      rw [hl₁] at h₁
      dsimp only at h₁ ⊢
      rw [h₁.1]
      have h₂ := loadPages_eq ((s.memoryMap.finds h.numPages).1.mapIdx residentEntry) file
        (h.numPages3 - h.numPages2) h.numPages2 h.initData.inFileAddr s₁
      cases hl₂ : loadPages ((s.memoryMap.finds h.numPages).1.mapIdx residentEntry) file
          (h.numPages3 - h.numPages2) h.numPages2 h.initData.inFileAddr s₁ with
      | error t s₂ =>
        rw [hl₂] at h₂
        dsimp only [bind, Except.bind] at h₂ ⊢
        rw [h₂]
      | ok _ s₂ =>
        rw [hl₂] at h₂
        dsimp only [bind, Except.bind] at h₂ ⊢
        rw [h₂.1, h₂.2, h₁.2]
        rfl
  · rw [if_neg hp, if_neg hp]
    rfl

theorem map_physicalPage (l : List ℤ) (shared : ℕ) :
    (l.mapIdx fun i f => residentEntry (shared + i) f).map (·.physicalPage) = l := by
  apply List.ext_getElem?
  intro i
  rw [List.getElem?_map, List.getElem?_mapIdx, Option.map_map]
  exact Option.map_id'

theorem freshFrames_finds {memoryMap : BitMap numPhysPages} {n : ℕ} (hn : n ≤ memoryMap.numClear)
    (shared : ℕ) :
    FreshFrames memoryMap
      ((memoryMap.finds n).1.mapIdx fun i f => residentEntry (shared + i) f) := by
  obtain ⟨frames, -, hnd, hfree, hfinds, -⟩ := BitMap.finds_ok hn
  rw [hfinds]
  refine ⟨fun e he => ?_, ?_⟩
  · obtain ⟨-, f, hf, hp⟩ := Life.mem_resident he
    exact ⟨f, hp, hfree f hf⟩
  · rw [map_physicalPage]
    exact hnd.map Nat.cast_injective

theorem construct_cases (h : NoffHeader) (file : HostFile) (s : Frames) :
    (numPhysPages < h.numPages ∧ h.construct file s = .error .assertion s) ∨
      h.numPages ≤ numPhysPages ∧ ((∃ s', h.construct file s = .error .memory s') ∨
        ∃ s', h.construct file s =
          .ok ((s.memoryMap.finds h.numPages).1.mapIdx residentEntry) s') := by
  unfold NoffHeader.construct
  by_cases hp : h.numPages ≤ numPhysPages
  · refine Or.inr ⟨hp, ?_⟩
    simp only [if_pos hp, findFrames, EStateM.apply_bind, EStateM.apply_get, EStateM.apply_set,
      EStateM.apply_pure]
    cases hl₁ : loadPages ((s.memoryMap.finds h.numPages).1.mapIdx residentEntry) file h.numPages2 0
        h.code.inFileAddr { s with memoryMap := (s.memoryMap.finds h.numPages).2 } with
    | error t s₁ => exact Or.inl ⟨s₁, by rw [loadPages_error hl₁]⟩
    | ok _ s₁ =>
      dsimp only
      cases hl₂ : loadPages ((s.memoryMap.finds h.numPages).1.mapIdx residentEntry) file
          (h.numPages3 - h.numPages2) h.numPages2 h.initData.inFileAddr s₁ with
      | error t s₂ => exact Or.inl ⟨s₂, by rw [loadPages_error hl₂]⟩
      | ok _ s₂ => exact Or.inr ⟨s₂, rfl⟩
  · rw [if_neg hp]
    exact Or.inl ⟨not_le.mp hp, rfl⟩

theorem construct_allocates_iff (h : NoffHeader) (file : HostFile) (s : Frames) :
    AllocatesSafely (h.construct file) 0 h.numPages s ↔
      h.numPages ≤ s.memoryMap.numClear ∨ numPhysPages < h.numPages := by
  obtain ⟨hp, hc⟩ | ⟨hp, hc⟩ := construct_cases h file s
  · refine iff_of_true ⟨fun t s' ht => ?_, fun _ => hc⟩ (Or.inr hp)
    rw [hc] at ht
    cases ht
  · constructor
    · intro hsafe
      by_contra hno
      have hr := hsafe.refused (by omega)
      obtain ⟨s', hc⟩ | ⟨s', hc⟩ := hc <;> rw [hc] at hr <;> cases hr
    · intro hclear
      have hclear : h.numPages ≤ s.memoryMap.numClear := by omega
      refine ⟨fun t s' ht => ?_, fun hlt => absurd hlt (by omega)⟩
      obtain ⟨s₁, hc⟩ | ⟨s₁, hc⟩ := hc <;> rw [hc] at ht <;> cases ht
      have hfresh := freshFrames_finds hclear 0
      simp only [Nat.zero_add] at hfresh
      exact hfresh

theorem copy_allocates_iff (a storage : AddrSpace) (s : Frames) :
    AllocatesSafely (a.construct storage) (a.pageTable.length - stackPages) stackPages s ↔
      stackPages ≤ s.memoryMap.numClear := by
  constructor
  · intro hsafe
    by_contra hno
    have hr := hsafe.refused (not_le.mp hno)
    cases hr
  · intro hclear
    refine ⟨fun t s' ht => ?_, fun hlt => absurd hlt (not_lt.mpr hclear)⟩
    cases ht
    have hdrop : (a.copy storage s.memoryMap).1.pageTable.drop (a.pageTable.length - stackPages) =
        (s.memoryMap.finds stackPages).1.mapIdx fun i f =>
          residentEntry (a.pageTable.length - stackPages + i) f := by
      have hlen : (a.pageTable.take (a.pageTable.length - stackPages)).length =
          a.pageTable.length - stackPages := by
        rw [List.length_take]
        omega
      simp only [AddrSpace.copy]
      rw [List.drop_append_of_le_length (by omega), List.drop_of_length_le (by omega),
        List.nil_append]
    rw [hdrop]
    exact freshFrames_finds hclear _

/-- A constructor allocates as it should exactly if there are enough free frames, or if the
program is larger than the memory. -/
theorem creation_safe_iff (h : NoffHeader) (file : HostFile) (a storage : AddrSpace) (s : Frames) :
    (AllocatesSafely (h.construct file) 0 h.numPages s ↔
        h.numPages ≤ s.memoryMap.numClear ∨ numPhysPages < h.numPages) ∧
      (AllocatesSafely (a.construct storage) (a.pageTable.length - stackPages) stackPages s ↔
        stackPages ≤ s.memoryMap.numClear) :=
  ⟨construct_allocates_iff h file s, copy_allocates_iff a storage s⟩

def tinyProgram : NoffHeader := ⟨⟨0, 40, 4⟩, ⟨0, 0, 0⟩, ⟨0, 0, 0⟩, by decide⟩

def sixFree : Frames where
  mainMemory := fun _ => 0
  memoryMap := ((BitMap.empty _).finds 26).2

def leavesUnbacked (r : EStateM.Result Trap Frames (List TranslationEntry)) : Bool :=
  match r with
  | .ok pageTable _ => pageTable.any fun e => e.valid && e.physicalPage == -1
  | .error _ _ => false

theorem exists_unbacked {r : EStateM.Result Trap Frames (List TranslationEntry)}
    (hr : leavesUnbacked r = true) : ∃ pageTable s', r = .ok pageTable s' ∧
      ∃ e ∈ pageTable, e.valid = true ∧ e.physicalPage = -1 := by
  cases r with
  | error t s' => cases hr
  | ok pageTable s' =>
    obtain ⟨e, he, hv⟩ := List.any_eq_true.mp hr
    rw [Bool.and_eq_true, beq_iff_eq] at hv
    exact ⟨pageTable, s', rfl, e, he, hv⟩

/-- With six free frames a program of nine pages is made all the same, and so is a thread with
eight pages of stack; both have pages that are valid and in frame -1. -/
theorem creation_unchecked :
    (∃ pageTable s', tinyProgram.construct [] sixFree = .ok pageTable s' ∧
      ∃ e ∈ pageTable, e.valid = true ∧ e.physicalPage = -1) ∧
    ¬AllocatesSafely (tinyProgram.construct []) 0 tinyProgram.numPages sixFree ∧
    (∃ pageTable s',
      (AddrSpace.new tinyProgram []).construct (.new tinyProgram []) sixFree = .ok pageTable s' ∧
        ∃ e ∈ pageTable, e.valid = true ∧ e.physicalPage = -1) ∧
    ¬AllocatesSafely ((AddrSpace.new tinyProgram []).construct (.new tinyProgram []))
      ((AddrSpace.new tinyProgram []).pageTable.length - stackPages) stackPages sixFree := by
  have hclear : sixFree.memoryMap.numClear = 6 := by decide +kernel
  refine ⟨exists_unbacked (by decide +kernel), ?_, exists_unbacked (by decide +kernel), ?_⟩
  · rw [construct_allocates_iff, hclear]
    decide
  · rw [copy_allocates_iff, hclear]
    decide

end Nachos
