import Nachos.MipsLoadStore
import Nachos.UserCopy

/-! The user memory of the build without `VM`. There is no TLB, `Translate` goes through the page
table, and an exception does not come back from `ExceptionHandler`. -/
namespace Nachos

structure Plain where
  mmu : Mmu
  mainMemory : Memory

/-- `ReadMem` and `WriteMem` without a TLB: `ExceptionHandler` does not come back, for a page
fault because `MoveraMemoria` looks into `tlb`, which is `NULL`. -/
def plainTranslate (addr : Word) (writing : Bool) : EStateM Trap Plain ℕ := do
  let s ← get
  match translate s.mmu addr 1 writing with
  | .error t => throw t
  | .ok (.error .pageFault) => throw .memory
  | .ok (.error _) => throw .assertion
  | .ok (.ok (pa, mmu)) =>
    set { s with mmu := mmu }
    return pa

def plainUser : UserMemory Plain where
  readMem addr := do
    let pa ← plainTranslate addr false
    let s ← get
    return s.mainMemory.read pa 1
  writeMem addr value := do
    let pa ← plainTranslate addr true
    modify fun s => { s with mainMemory := s.mainMemory.store pa 1 value }
    return true

section Plain

variable {mmu mmu' : Mmu} {addr : Word} {size pa : ℕ} {writing : Bool}

theorem translate_same_symm (h : translate mmu addr size writing = .ok (.ok (pa, mmu'))) :
    mmu'.Same mmu := by
  obtain ⟨ha, hs, e, hf, hr⟩ := translate_eq_ok h
  cases mmu with
  | tlb t =>
    cases mmu' with
    | tlb t' =>
      intro i
      exact ⟨(hs i).virtualPage.symm, (hs i).physicalPage.symm, (hs i).valid.symm,
        (hs i).readOnly.symm⟩
    | pageTable l' => exact hs.elim
  | pageTable l =>
    obtain ⟨he, hv⟩ := Option.filter_eq_some_iff.mp hf
    have hacc := TranslationEntry.access_eq_ok.mpr ⟨hr, rfl⟩
    simp only [translate, ha, Bool.false_eq_true, if_false, he, hv, Bool.not_true, bind,
      Except.bind, hacc, Except.ok.injEq, Prod.mk.injEq] at h
    obtain ⟨-, rfl⟩ := h
    intro i e' he'
    have hi : i < l.length := by
      have := (List.getElem?_eq_some_iff.mp he').1
      rwa [List.length_set] at this
    obtain ⟨e'', he'', hs'⟩ := hs i _ (List.getElem?_eq_getElem hi)
    rw [he'] at he''
    obtain rfl := Option.some.inj he''
    exact ⟨_, List.getElem?_eq_getElem hi, hs'.virtualPage.symm, hs'.physicalPage.symm,
      hs'.valid.symm, hs'.readOnly.symm⟩

theorem locate_translate (h : translate mmu addr size writing = .ok (.ok (pa, mmu'))) (w : Bool)
    (x : Word) (n : ℕ) : mmu'.locate x n w = mmu.locate x n w := by
  have hs := (translate_eq_ok h).2.1
  have hs' := translate_same_symm h
  cases hl : mmu.locate x n w with
  | some pa' => exact hs.locate hl
  | none =>
    cases hl' : mmu'.locate x n w with
    | none => rfl
    | some pa' =>
      rw [hs'.locate hl'] at hl
      cases hl

theorem locate_lt (h : mmu.locate addr 1 writing = some pa) : pa < memorySize := by
  obtain ⟨-, e, -, hr⟩ := locate_eq_some.mp h
  exact hr.fits

variable {s : Plain}

theorem plainTranslate_eq (h : s.mmu.locate addr 1 writing = some pa) :
    ∃ mmu', plainTranslate addr writing s = .ok pa { s with mmu := mmu' } ∧
      ∀ w x, mmu'.locate x 1 w = s.mmu.locate x 1 w := by
  obtain ⟨ha, e, hf, hr⟩ := locate_eq_some.mp h
  obtain ⟨mmu', ht⟩ := translate_of_find ha hf hr
  refine ⟨mmu', ?_, fun w x => locate_translate ht w x 1⟩
  simp only [plainTranslate, EStateM.apply_bind, EStateM.apply_get, ht, EStateM.apply_set,
    EStateM.apply_pure]

def plainResident : ResidentMemory Plain where
  toUserMemory := plainUser
  place s writing addr := s.mmu.locate addr 1 writing
  mainMemory := Plain.mainMemory
  place_lt := locate_lt
  place_read := locate_read
  read_placed {s addr pa} h := by
    obtain ⟨mmu', ht, hl⟩ := plainTranslate_eq h
    refine ⟨{ s with mmu := mmu' }, ?_, rfl, hl⟩
    simp only [plainUser, EStateM.apply_bind, ht, EStateM.apply_get, EStateM.apply_pure,
      Memory.read]
  write_placed {s addr pa} value h := by
    obtain ⟨mmu', ht, hl⟩ := plainTranslate_eq h
    refine ⟨{ s with mmu := mmu', mainMemory := s.mainMemory.store pa 1 value }, ?_, rfl, hl⟩
    simp only [plainUser, EStateM.apply_bind, ht, EStateM.apply_modify, EStateM.apply_pure]

end Plain

end Nachos
