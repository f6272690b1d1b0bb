import Nachos.HandleTables

/-! The handle tables as partial maps from handles to values. The map says what the tables are
for: the least free handle goes to a new value, a full table answers -1, a lookup finds what was
registered last and not closed since. The tables do so until a value is registered in a full
table, where `Find` gives -1 and the value is written in front of the array. -/
namespace Nachos

namespace HandleMap

/-- The calls of a table; `inUse` is `isOpened` or `isCreate`, `get` is `getUnixHandle` or
`getSemaphore`. -/
inductive Call where
  | register (value : ℤ)
  | close (handle : ℤ)
  | inUse (handle : ℤ)
  | get (handle : ℤ)
  deriving DecidableEq, Repr

inductive Reply where
  | number (n : ℤ)
  | flag (b : Bool)
  deriving DecidableEq, Repr

def Call.InRange (numBits : ℕ) : Call → Prop
  | .register _ => True
  | .close handle | .inUse handle | .get handle => 0 ≤ handle ∧ handle < numBits

section spec
variable (numBits : ℕ) (kept : ℤ)

def least (f : ℤ → Option ℤ) : Option ℕ := (List.range numBits).find? fun i => (f i).isNone

/-- One call on a map of `numBits` handles, of which those below `kept` are never closed. -/
def apply (f : ℤ → Option ℤ) : Call → Reply × (ℤ → Option ℤ)
  | .register value =>
    match least numBits f with
    | some handle => (.number handle, Function.update f handle (some value))
    | none => (.number (-1), f)
  | .close handle =>
    if (f handle).isSome ∧ kept ≤ handle then (.number 1, Function.update f handle none)
    else (.number (-1), f)
  | .inUse handle => (.flag (f handle).isSome, f)
  | .get handle => (.number ((f handle).getD (-1)), f)

def applyAll (f : ℤ → Option ℤ) : List Call → List Reply × (ℤ → Option ℤ)
  | [] => ([], f)
  | c :: calls =>
    let rest := applyAll (apply numBits kept f c).2 calls
    ((apply numBits kept f c).1 :: rest.1, rest.2)

/-- No value is registered while all handles are in use. -/
def Roomy (f : ℤ → Option ℤ) : List Call → Prop
  | [] => True
  | c :: calls => (∀ value, c = .register value → (least numBits f).isSome) ∧
      Roomy (apply numBits kept f c).2 calls

end spec

section run
variable {τ : Type} (step : τ → Call → Except Trap (Reply × τ))

def performAll (t : τ) : List Call → Except Trap (List Reply × τ)
  | [] => .ok ([], t)
  | c :: calls => do
    let (reply, t) ← step t c
    let (replies, t) ← performAll t calls
    return (reply :: replies, t)

def Answers (numBits : ℕ) (kept : ℤ) (view : τ → ℤ → Option ℤ) (t : τ) (calls : List Call) : Prop :=
  ∃ t', performAll step t calls = .ok ((applyAll numBits kept (view t) calls).1, t') ∧
    view t' = (applyAll numBits kept (view t) calls).2

/-- The table follows the map call by call, but for a registration on a full table, which
fails. -/
structure Follows (numBits : ℕ) (kept : ℤ) (view : τ → ℤ → Option ℤ) (inv : τ → Prop) : Prop where
  room : ∀ t c, inv t → c.InRange numBits →
    (∀ value, c = .register value → (least numBits (view t)).isSome) →
    ∃ t', step t c = .ok ((apply numBits kept (view t) c).1, t') ∧
      view t' = (apply numBits kept (view t) c).2 ∧ inv t'
  full : ∀ t value, (least numBits (view t)).isNone → ∃ e, step t (.register value) = .error e

variable {step} {numBits : ℕ} {kept : ℤ} {view : τ → ℤ → Option ℤ} {inv : τ → Prop}
  {calls : List Call} {t : τ}

theorem Follows.answers (h : Follows step numBits kept view inv)
    (hin : ∀ c ∈ calls, c.InRange numBits) (ht : inv t)
    (hroom : Roomy numBits kept (view t) calls) :
    Answers step numBits kept view t calls := by
  induction calls generalizing t with
  | nil => exact ⟨t, rfl, rfl⟩
  | cons c calls ih =>
    obtain ⟨t₁, hstep, hview, hinv⟩ := h.room t c ht (hin c List.mem_cons_self) hroom.1
    obtain ⟨t', hrun, hv⟩ := ih (fun c' hc' => hin c' (List.mem_cons_of_mem _ hc')) hinv
      (by rw [hview]; exact hroom.2)
    rw [hview] at hrun hv
    refine ⟨t', ?_, hv⟩
    simp only [performAll, hstep, bind, Except.bind, hrun]
    rfl

theorem Follows.roomy (h : Follows step numBits kept view inv)
    (hin : ∀ c ∈ calls, c.InRange numBits) (ht : inv t) {replies : List Reply} {t' : τ}
    (hrun : performAll step t calls = .ok (replies, t')) : Roomy numBits kept (view t) calls := by
  induction calls generalizing t replies with
  | nil => trivial
  | cons c calls ih =>
    have hroom : ∀ value, c = .register value → (least numBits (view t)).isSome := by
      rintro value rfl
      by_contra hnone
      obtain ⟨e, he⟩ := h.full t value (by simpa using hnone)
      simp only [performAll, he, bind, Except.bind] at hrun
      cases hrun
    obtain ⟨t₁, hstep, hview, hinv⟩ := h.room t c ht (hin c List.mem_cons_self) hroom
    simp only [performAll, hstep, bind, Except.bind] at hrun
    cases hrest : performAll step t₁ calls with
    | error e =>
      rw [hrest] at hrun
      cases hrun
    | ok r =>
      rw [hrest] at hrun
      obtain ⟨rest, t''⟩ := r
      obtain ⟨-, rfl⟩ := Prod.mk.inj (Except.ok.inj hrun)
      refine ⟨hroom, ?_⟩
      rw [← hview]
      exact ih (fun c' hc' => hin c' (List.mem_cons_of_mem _ hc')) hinv hrest

theorem Follows.answers_iff (h : Follows step numBits kept view inv)
    (hin : ∀ c ∈ calls, c.InRange numBits) (ht : inv t) :
    Answers step numBits kept view t calls ↔ Roomy numBits kept (view t) calls := by
  constructor
  · rintro ⟨t', hrun, -⟩
    exact h.roomy hin ht hrun
  · exact h.answers hin ht

end run

def free (numBits : ℕ) (f : ℤ → Option ℤ) : Finset ℕ :=
  (Finset.range numBits).filter fun i => f i = none

theorem Roomy.le_free {numBits n : ℕ} {kept value : ℤ} {f : ℤ → Option ℤ}
    (h : Roomy numBits kept f (List.replicate n (.register value))) :
    n ≤ (free numBits f).card := by
  induction n generalizing f with
  | zero => exact Nat.zero_le _
  | succ n ih =>
    obtain ⟨i, hi⟩ := Option.isSome_iff_exists.mp (h.1 value rfl)
    obtain ⟨hnone, hlt, -⟩ := List.find?_range_eq_some.mp hi
    have hmem : i ∈ free numBits f :=
      Finset.mem_filter.mpr ⟨Finset.mem_range.mpr (List.mem_range.mp hlt), by simpa using hnone⟩
    have hrest := h.2
    simp only [apply, hi] at hrest
    have hset : free numBits (Function.update f i (some value)) = (free numBits f).erase i := by
      ext j
      simp only [free, Finset.mem_filter, Finset.mem_erase, Function.update_apply]
      by_cases hj : j = i <;> simp [hj]
    have hcard := ih hrest
    rw [hset, Finset.card_erase_of_mem hmem] at hcard
    have := Finset.card_pos.mpr ⟨i, hmem⟩
    omega

end HandleMap

namespace HandleTable
variable {numBits : ℕ} {t : HandleTable numBits}

theorem isNone_binding {i : ℕ} (hi : i < numBits) : (t.binding i).isNone = !t.map.bit i := by
  rw [← Option.not_isSome, isSome_binding, holds, BitMap.inRange_of_lt hi, Bool.true_and,
    Int.toNat_natCast]

theorem least_binding :
    HandleMap.least numBits t.binding = (List.range numBits).find? fun i => !t.map.bit i := by
  unfold HandleMap.least
  apply List.find?_congr
  intro i hi
  exact isNone_binding (List.mem_range.mp hi)

theorem register_room (value : ℤ) (h : (HandleMap.least numBits t.binding).isSome) :
    ∃ i t', HandleMap.least numBits t.binding = some i ∧ t.register value = .ok ((i : ℤ), t') ∧
      t'.usage = t.usage ∧ t'.binding = Function.update t.binding i (some value) := by
  obtain ⟨i, hi⟩ := Option.isSome_iff_exists.mp h
  have hfind := hi
  rw [least_binding] at hfind
  obtain ⟨hbit, hlt, -⟩ := List.find?_range_eq_some.mp hfind
  obtain ⟨t', hreg⟩ : ∃ t', t.register value = .ok ((i : ℤ), t') := by
    unfold register BitMap.find
    rw [hfind]
    dsimp only
    rw [if_pos (BitMap.inRange_of_lt (List.mem_range.mp hlt))]
    exact ⟨_, rfl⟩
  obtain ⟨-, -, husage, hbind⟩ := register_binding hreg
  exact ⟨i, t', hi, hreg, husage, hbind⟩

theorem register_full (value : ℤ) (h : (HandleMap.least numBits t.binding).isNone) :
    t.register value = .error .memory := by
  rw [Option.isNone_iff_eq_none, least_binding] at h
  unfold register BitMap.find
  rw [h]
  rfl

end HandleTable

namespace NachosOpenFilesTable

def perform (t : NachosOpenFilesTable) : HandleMap.Call →
    Except Trap (HandleMap.Reply × NachosOpenFilesTable)
  | .register value => do
    let (space, t) ← t.openHandle value
    return (.number space, t)
  | .close handle => do
    let (ret, t) ← t.close handle
    return (.number ret, t)
  | .inUse handle => do return (.flag (← t.isOpened handle), t)
  | .get handle => do return (.number (← t.getUnixHandle handle), t)

def consoleMap (i : ℤ) : Option ℤ := if 0 ≤ i ∧ i ≤ 2 then some i else none

variable {t : NachosOpenFilesTable}

theorem new_binding (usage : ℤ) : (new usage).binding = consoleMap := by
  funext i
  unfold consoleMap
  by_cases h0 : 0 ≤ i
  · by_cases h2 : i ≤ 2
    · rw [binding_new h0 h2, if_pos ⟨h0, h2⟩]
    · rw [binding_new_of_gt (by omega), if_neg (by omega)]
  · have hr : BitMap.inRange maxArch i = false := by
      simp only [BitMap.inRange, decide_eq_false_iff_not]
      omega
    rw [if_neg (by omega), HandleTable.binding, HandleTable.holds, hr]
    rfl

theorem openHandle_room (value : ℤ) (h : (HandleMap.least maxArch t.binding).isSome) :
    ∃ i t', HandleMap.least maxArch t.binding = some i ∧ t.openHandle value = .ok ((i : ℤ), t') ∧
      t'.binding = Function.update t.binding i (some value) := by
  obtain ⟨i, t', hi, hreg, -, hbind⟩ := HandleTable.register_room value h
  unfold openHandle
  split
  case h_1 space t'' ht =>
    obtain ⟨rfl, rfl⟩ := Prod.mk.inj (Except.ok.inj (ht.symm.trans hreg))
    exact ⟨i, _, hi, rfl, hbind⟩
  case h_2 e he => cases he.symm.trans hreg

theorem openHandle_full (value : ℤ) (h : (HandleMap.least maxArch t.binding).isNone) :
    t.openHandle value = .error .memory := by
  have hreg := HandleTable.register_full value h
  unfold openHandle
  split
  case h_1 space t' ht => cases ht.symm.trans hreg
  case h_2 e he =>
    rw [he] at hreg
    rw [Except.error.inj hreg]

theorem close_map (t : NachosOpenFilesTable) {handle : ℤ}
    (hr : BitMap.inRange maxArch handle = true) :
    ∃ t', t.close handle = .ok ((if (t.binding handle).isSome ∧ 3 ≤ handle then 1 else -1), t') ∧
      t'.binding =
        if (t.binding handle).isSome ∧ 3 ≤ handle then Function.update t.binding handle none
        else t.binding := by
  rw [HandleTable.isSome_binding]
  unfold close isOpened
  rw [HandleTable.test_inRange hr]
  simp only [bind, Except.bind]
  by_cases hc : t.holds handle = true ∧ 2 < handle
  · have hc' : t.holds handle = true ∧ 3 ≤ handle := ⟨hc.1, by omega⟩
    rw [dif_pos hc, if_pos hc', if_pos hc']
    split
    case h_1 t' ht => exact ⟨_, rfl, (HandleTable.release_binding ht).2⟩
    case h_2 e he =>
      rw [HandleTable.release_holds hc.1] at he
      cases he
  · have hc' : ¬(t.holds handle = true ∧ 3 ≤ handle) := fun h => hc ⟨h.1, by omega⟩
    rw [dif_neg hc, if_neg hc', if_neg hc']
    exact ⟨t, rfl, rfl⟩

theorem perform_follows {c : HandleMap.Call} (hin : c.InRange maxArch)
    (hroom : ∀ value, c = .register value → (HandleMap.least maxArch t.binding).isSome) :
    ∃ t', perform t c = .ok ((HandleMap.apply maxArch 3 t.binding c).1, t') ∧
      t'.binding = (HandleMap.apply maxArch 3 t.binding c).2 := by
  cases c with
  | register value =>
    obtain ⟨i, t', hi, hopen, hbind⟩ := openHandle_room value (hroom value rfl)
    refine ⟨t', ?_, ?_⟩
    · simp only [perform, hopen, HandleMap.apply, hi]
      rfl
    · simp only [HandleMap.apply, hi, hbind]
  | close handle =>
    obtain ⟨t', hclose, hbind⟩ := close_map t (decide_eq_true hin)
    refine ⟨t', ?_, ?_⟩
    · simp only [perform, hclose, HandleMap.apply]
      split_ifs <;> rfl
    · rw [hbind, HandleMap.apply]
      split_ifs <;> rfl
  | inUse handle =>
    refine ⟨t, ?_, rfl⟩
    rw [perform, isOpened, HandleTable.test_inRange (decide_eq_true hin),
      HandleMap.apply, HandleTable.isSome_binding]
    rfl
  | get handle =>
    refine ⟨t, ?_, rfl⟩
    rw [perform, getUnixHandle, HandleTable.lookup_inRange (decide_eq_true hin)]
    rfl

theorem perform_full {value : ℤ} (h : (HandleMap.least maxArch t.binding).isNone) :
    ∃ e, perform t (.register value) = .error e := by
  refine ⟨.memory, ?_⟩
  rw [perform, openHandle_full value h]
  rfl

end NachosOpenFilesTable

namespace SemTabla

def perform (t : SemTabla) : HandleMap.Call → Except Trap (HandleMap.Reply × SemTabla)
  | .register value => do
    let (space, t) ← create t value
    return (.number space, t)
  | .close id => do
    let (ret, t) ← close t id
    return (.number ret, t)
  | .inUse id => do return (.flag (← isCreate t id), t)
  | .get id => do return (.number (← getSemaphore t id), t)

variable {t : SemTabla}

theorem new_binding (usage : ℤ) : (new usage).binding = fun _ => none := by
  funext i
  rw [HandleTable.binding_eq_none_iff, HandleTable.holds, new, BitMap.bit_empty, Bool.and_false]

theorem close_map (t : SemTabla) {id : ℤ} (hr : BitMap.inRange maxSem id = true)
    (hu : t.usage = 0) :
    ∃ t', close t id = .ok ((if (t.binding id).isSome then 1 else -1), t') ∧ t'.usage = 0 ∧
      t'.binding =
        if (t.binding id).isSome then Function.update t.binding id none else t.binding := by
  rw [HandleTable.isSome_binding]
  unfold close isCreate
  rw [if_pos hu, HandleTable.test_inRange hr]
  simp only [bind, Except.bind]
  by_cases hc : t.holds id = true
  · have hrel := HandleTable.release_holds hc (-1)
    obtain ⟨husage, hbind⟩ := HandleTable.release_binding hrel
    rw [if_pos hc, hrel, if_pos hc, if_pos hc]
    exact ⟨_, rfl, husage.trans hu, hbind⟩
  · rw [if_neg hc, if_neg hc, if_neg hc]
    exact ⟨t, rfl, hu, rfl⟩

theorem perform_follows {c : HandleMap.Call} (hu : t.usage = 0) (hin : c.InRange maxSem)
    (hroom : ∀ value, c = .register value → (HandleMap.least maxSem t.binding).isSome) :
    ∃ t', perform t c = .ok ((HandleMap.apply maxSem 0 t.binding c).1, t') ∧
      t'.binding = (HandleMap.apply maxSem 0 t.binding c).2 ∧ t'.usage = 0 := by
  cases c with
  | register value =>
    obtain ⟨i, t', hi, hreg, husage, hbind⟩ := HandleTable.register_room value
      (hroom value rfl)
    refine ⟨t', ?_, ?_, husage.trans hu⟩
    · simp only [perform, create, hreg, HandleMap.apply, hi]
      rfl
    · simp only [HandleMap.apply, hi, hbind]
  | close id =>
    obtain ⟨t', hclose, husage, hbind⟩ := close_map t (decide_eq_true hin) hu
    have hpos : ((t.binding id).isSome = true ∧ 0 ≤ id) = ((t.binding id).isSome = true) := by
      simp [hin.1]
    refine ⟨t', ?_, ?_, husage⟩
    · simp only [perform, hclose, HandleMap.apply, hpos]
      split_ifs <;> rfl
    · simp only [hbind, HandleMap.apply, hpos]
      split_ifs <;> rfl
  | inUse id =>
    refine ⟨t, ?_, rfl, hu⟩
    rw [perform, isCreate, HandleTable.test_inRange (decide_eq_true hin),
      HandleMap.apply, HandleTable.isSome_binding]
    rfl
  | get id =>
    refine ⟨t, ?_, rfl, hu⟩
    rw [perform, getSemaphore, HandleTable.lookup_inRange (decide_eq_true hin)]
    rfl

theorem perform_full {value : ℤ} (h : (HandleMap.least maxSem t.binding).isNone) :
    ∃ e, perform t (.register value) = .error e := by
  refine ⟨.memory, ?_⟩
  rw [perform, create, HandleTable.register_full value h]
  rfl

end SemTabla

namespace HandleMap

theorem apply_kept {numBits : ℕ} {kept i : ℤ} {f : ℤ → Option ℤ} (c : Call) (hi : i < kept)
    {value : ℤ} (hf : f i = some value) : (apply numBits kept f c).2 i = some value := by
  cases c with
  | register v =>
    simp only [apply]
    cases hl : least numBits f with
    | none => exact hf
    | some j =>
      have hfree := (List.find?_range_eq_some.mp hl).1
      have hne : i ≠ j := by
        rintro rfl
        rw [hf] at hfree
        cases hfree
      rw [← hf]
      exact Function.update_of_ne hne _ _
  | close handle =>
    simp only [apply]
    split_ifs with hc
    · rw [← hf]
      exact Function.update_of_ne (by omega) _ _
    · exact hf
  | inUse handle => exact hf
  | get handle => exact hf

theorem applyAll_kept (numBits : ℕ) {kept i : ℤ} {f : ℤ → Option ℤ} (calls : List Call)
    (hi : i < kept) {value : ℤ} (hf : f i = some value) :
    (applyAll numBits kept f calls).2 i = some value := by
  induction calls generalizing f with
  | nil => exact hf
  | cons c calls ih => exact ih (apply_kept c hi hf)

end HandleMap

theorem NachosOpenFilesTable.follows :
    HandleMap.Follows NachosOpenFilesTable.perform maxArch 3 (fun t => t.binding)
      fun _ => True where
  room _ _ _ hin hroom := by
    obtain ⟨t', hrun, hbind⟩ := NachosOpenFilesTable.perform_follows hin hroom
    exact ⟨t', hrun, hbind, trivial⟩
  full _ _ h := NachosOpenFilesTable.perform_full h

theorem SemTabla.follows :
    HandleMap.Follows SemTabla.perform maxSem 0 (fun t => t.binding) fun t => t.usage = 0 where
  room _ _ hu hin hroom := SemTabla.perform_follows hu hin hroom
  full _ _ h := SemTabla.perform_full h

/-- The file table and the semaphore table answer a sequence of calls with handles in range as the
partial map does exactly when no value is registered in a full table; and the console handles keep
their values. -/
theorem handleTables_answer_iff (usage : ℤ) (files sems : List HandleMap.Call)
    (hfiles : ∀ c ∈ files, c.InRange maxArch) (hsems : ∀ c ∈ sems, c.InRange maxSem) :
    (HandleMap.Answers NachosOpenFilesTable.perform maxArch 3 (fun t => t.binding)
      (.new usage) files ↔
        HandleMap.Roomy maxArch 3 NachosOpenFilesTable.consoleMap files) ∧
      (HandleMap.Answers SemTabla.perform maxSem 0 (fun t => t.binding) (.new 0) sems ↔
        HandleMap.Roomy maxSem 0 (fun _ => none) sems) ∧
      ∀ replies t, HandleMap.performAll NachosOpenFilesTable.perform (.new usage) files =
          .ok (replies, t) → ∀ i, 0 ≤ i → i ≤ 2 → t.binding i = some i := by
  have hnew := NachosOpenFilesTable.new_binding usage
  refine ⟨?_, ?_, fun replies t hrun i h0 h2 => ?_⟩
  · rw [← hnew]
    exact NachosOpenFilesTable.follows.answers_iff hfiles trivial
  · rw [← SemTabla.new_binding 0]
    exact SemTabla.follows.answers_iff hsems rfl
  · have hroom := NachosOpenFilesTable.follows.roomy hfiles trivial hrun
    obtain ⟨t', hrun', hbind⟩ := NachosOpenFilesTable.follows.answers hfiles trivial hroom
    obtain ⟨-, rfl⟩ := Prod.mk.inj (Except.ok.inj (hrun.symm.trans hrun'))
    have hi : (NachosOpenFilesTable.new usage).binding i = some i :=
      NachosOpenFilesTable.binding_new h0 h2
    exact (congrFun hbind i).trans (HandleMap.applyAll_kept maxArch files (by omega) hi)

/-- Open, look up, close and look up again. -/
theorem handleTables_answer_few :
    HandleMap.Answers NachosOpenFilesTable.perform maxArch 3 (fun t => t.binding) (.new 0)
        [.register 7, .get 3, .close 3, .get 3] ∧
      HandleMap.Answers SemTabla.perform maxSem 0 (fun t => t.binding) (.new 0)
        [.register 9, .get 0] := by
  have h := handleTables_answer_iff 0 [.register 7, .get 3, .close 3, .get 3] [.register 9, .get 0]
    (by simp [HandleMap.Call.InRange]) (by simp [HandleMap.Call.InRange])
  refine ⟨h.1.mpr ?_, h.2.1.mpr ?_⟩
  · have hroom : (HandleMap.least maxArch NachosOpenFilesTable.consoleMap).isSome := by
      decide +kernel
    simp [HandleMap.Roomy, hroom]
  · have hroom : (HandleMap.least maxSem fun _ => none).isSome := by decide +kernel
    simp [HandleMap.Roomy, hroom]

/-- The 129th semaphore: all handles are in use, and `Create` writes in front of the array. -/
theorem semTabla_full_not_answered :
    (HandleMap.performAll SemTabla.perform (.new 0) (List.replicate 129 (.register 9))).toOption =
        none ∧
      ¬HandleMap.Answers SemTabla.perform maxSem 0 (fun t => t.binding) (.new 0)
        (List.replicate 129 (.register 9)) := by
  have hfail : ∀ r, HandleMap.performAll SemTabla.perform (.new 0)
      (List.replicate 129 (.register 9)) ≠ .ok r := by
    rintro ⟨replies, t⟩ hrun
    have hroom := SemTabla.follows.roomy (by simp [HandleMap.Call.InRange]) rfl hrun
    have hcard := hroom.le_free.trans (Finset.card_filter_le _ _)
    rw [Finset.card_range] at hcard
    exact absurd hcard (by decide)
  refine ⟨?_, ?_⟩
  · cases hrun : HandleMap.performAll SemTabla.perform (.new 0)
        (List.replicate 129 (.register 9)) with
    | error e => rfl
    | ok r => exact absurd hrun (hfail r)
  · rintro ⟨t', hok, -⟩
    exact hfail _ hok

end Nachos
