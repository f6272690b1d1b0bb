import Nachos.LinearMemory

/-! The two ways `Translate` finds an entry. A TLB that holds copies of entries of a page table
translates as the page table does, for the pages it holds, and stays a copy. -/
namespace Nachos

/-- Each valid entry of the TLB is the entry of its page in the page table, and no page has two. -/
structure Tlb.Mirrors (t : Tlb) (entries : List TranslationEntry) : Prop where
  copies : ∀ i, (t i).valid = true →
    ∃ vpn : ℕ, (t i).virtualPage = vpn ∧ entries[vpn]? = some (t i)
  single : ∀ i j, (t i).valid = true → (t j).valid = true →
    (t i).virtualPage = (t j).virtualPage → i = j

def Tlb.Holds (t : Tlb) (virtAddr : Word) : Prop :=
  ∃ i, (t i).valid = true ∧ (t i).virtualPage = (virtAddr.toNat / pageSize : ℕ)

/-- Both translations raise one exception, or both give one address and the same bits to the
entry and to its copy in slot `i`. -/
def Alike (t : Tlb) (entries : List TranslationEntry) (virtAddr : Word) (size : ℕ)
    (writing : Bool) : Prop :=
  (∃ e, translate (.tlb t) virtAddr size writing = .ok (.error e) ∧
    translate (.pageTable entries) virtAddr size writing = .ok (.error e)) ∨
  ∃ pa i e, (t i).valid = true ∧ (t i).virtualPage = (virtAddr.toNat / pageSize : ℕ) ∧
    e = { t i with use := true, dirty := (t i).dirty || writing } ∧
    translate (.tlb t) virtAddr size writing = .ok (.ok (pa, .tlb (Function.update t i e))) ∧
    translate (.pageTable entries) virtAddr size writing =
      .ok (.ok (pa, .pageTable (entries.set (virtAddr.toNat / pageSize) e))) ∧
    Tlb.Mirrors (Function.update t i e) (entries.set (virtAddr.toNat / pageSize) e)

section agree
variable {t : Tlb} {entries : List TranslationEntry} {a : Word} {size : ℕ} {writing : Bool}

theorem Tlb.Mirrors.touch (h : t.Mirrors entries) {i : Fin tlbSize} {vpn : ℕ}
    (hv : (t i).valid = true) (hp : (t i).virtualPage = vpn) (writing : Bool) :
    Tlb.Mirrors (Function.update t i ((t i).touch writing))
      (entries.set vpn ((t i).touch writing)) := by
  have hvalid : ∀ j, (Function.update t i ((t i).touch writing) j).valid = (t j).valid ∧
      (Function.update t i ((t i).touch writing) j).virtualPage = (t j).virtualPage := by
    intro j
    by_cases hj : j = i
    · subst hj
      rw [Function.update_self]
      exact ⟨rfl, rfl⟩
    · rw [Function.update_of_ne hj]
      exact ⟨rfl, rfl⟩
  constructor
  case copies =>
    intro j hj
    rw [(hvalid j).1] at hj
    obtain ⟨vpn', hp', he⟩ := h.copies j hj
    refine ⟨vpn', (hvalid j).2.trans hp', ?_⟩
    by_cases hji : j = i
    · subst hji
      obtain rfl : vpn = vpn' := by exact_mod_cast hp.symm.trans hp'
      rw [Function.update_self, List.getElem?_set_self (List.getElem?_eq_some_iff.mp he).1]
    · have hne : vpn ≠ vpn' := by
        rintro rfl
        exact hji (h.single j i hj hv (hp'.trans hp.symm))
      rw [Function.update_of_ne hji, List.getElem?_set_ne hne]
      exact he
  case single =>
    intro j k hj hk heq
    rw [(hvalid j).1] at hj
    rw [(hvalid k).1] at hk
    rw [(hvalid j).2, (hvalid k).2] at heq
    exact h.single j k hj hk heq

theorem alike_of_holds (h : t.Mirrors entries) (hs : size = 1 ∨ size = 2 ∨ size = 4)
    (hh : t.Holds a) : Alike t entries a size writing := by
  by_cases ha : misaligned a size = true
  · exact .inl ⟨.addressError, by rw [translate, if_pos ha], by rw [translate, if_pos ha]⟩
  · have hoff := offset_add_size_le hs (by simpa using ha)
    obtain ⟨i, hi⟩ := Option.isSome_iff_exists.mp (Tlb.lookup_isSome.mpr hh)
    obtain ⟨hv, hp⟩ := Tlb.lookup_eq_some hi
    obtain ⟨vpn, hp', he⟩ := h.copies i hv
    obtain rfl : a.toNat / pageSize = vpn := by exact_mod_cast hp.symm.trans hp'
    cases hacc : (t i).access (a.toNat % pageSize) size writing with
    | error tr => exact absurd hacc ((t i).access_no_trap writing hoff tr)
    | ok r =>
      cases r with
      | error e =>
        refine .inl ⟨e, ?_, ?_⟩
        · simp only [translate, ha, hi, hacc, bind, Except.bind]
          rfl
        · simp only [translate, ha, he, hv, hacc, bind, Except.bind]
          rfl
      | ok p =>
        obtain ⟨pa, e⟩ := p
        obtain rfl := (TranslationEntry.access_eq_ok.mp hacc).2
        refine .inr ⟨pa, i, (t i).touch writing, hv, hp, rfl, ?_, ?_, h.touch hv hp writing⟩
        · simp only [translate, ha, hi, hacc, bind, Except.bind]
          rfl
        · simp only [translate, ha, he, hv, hacc, bind, Except.bind]
          rfl

theorem translate_of_not_holds (hh : ¬ t.Holds a) : translate (.tlb t) a size writing =
    .ok (.error (if misaligned a size then .addressError else .pageFault)) := by
  by_cases ha : misaligned a size = true
  · rw [translate, if_pos ha, if_pos ha]
  · rw [if_neg ha]
    refine translate_tlb_miss writing (by simpa using ha) (Tlb.lookup_eq_none.mpr fun i hv hp => ?_)
    exact hh ⟨i, hv, hp⟩

end agree

/-- A TLB of copies translates as the page table does, for the pages it holds; for the others it
raises an exception, and no entry changes. -/
theorem translate_agrees (t : Tlb) (entries : List TranslationEntry) (h : t.Mirrors entries)
    (a : Word) (size : ℕ) (hs : size = 1 ∨ size = 2 ∨ size = 4) (writing : Bool) :
    (t.Holds a → Alike t entries a size writing) ∧
    (¬ t.Holds a → translate (.tlb t) a size writing =
        .ok (.error (if misaligned a size then .addressError else .pageFault)) ∧
      ∀ m : Machine, m.mmu = .tlb t →
        ∃ st m', translateOrRaise a size writing m = .error st m' ∧ m.Kept m') := by
  refine ⟨alike_of_holds h hs, fun hh => ⟨translate_of_not_holds hh, fun m hm => ?_⟩⟩
  exact translateOrRaise_exception (by rw [hm]; exact translate_of_not_holds hh)

def onePage : List TranslationEntry := [⟨0, 3, true, false, false, false⟩]

def onePageTlb : Tlb := fun i => if i = 0 then ⟨0, 3, true, false, false, false⟩
  else ⟨0, 0, false, false, false, false⟩

theorem translate_agrees_onePage : Alike onePageTlb onePage 8 4 true :=
  (translate_agrees onePageTlb onePage
    ⟨fun i hi => ⟨0, by revert i; decide, by revert i; decide⟩, by decide⟩ 8 4 (by decide) true).1
    ⟨0, by decide, by decide⟩

end Nachos
