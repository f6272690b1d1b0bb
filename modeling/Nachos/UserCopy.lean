import Nachos.VmSystem

/-! How the system calls copy between user memory and kernel buffers (`exception.cc`). The
loops go through `ReadMem` and `WriteMem` byte by byte and do not look at their result: when
a page fault has been served instead of the access, a read leaves the last character in
`c` and a write is lost. -/
namespace Nachos

/-- `ReadMem` and `WriteMem` of one byte. No value, and `false`, when an exception was raised
and its handler came back. -/
structure UserMemory (μ : Type) where
  readMem : Word → EStateM Trap μ (Option Word)
  writeMem : Word → Word → EStateM Trap μ Bool

section Loops

variable {μ : Type} (mem : UserMemory μ)

/-- The loop that copies a string into a buffer with `room` bytes left. The model stops where the
loop would store behind the buffer. -/
def copyString : ℕ → Word → Word → EStateM Trap μ (List Byte)
  | 0, direc, _ => do
    let _ ← mem.readMem direc
    throw .memory
  | room + 1, direc, c => do
    let k ← mem.readMem direc
    if k.getD c = 0 then return [0]
    else
      let rest ← copyString room (direc + 1) (k.getD c)
      return (k.getD c).setWidth 8 :: rest

def copyTerminated (room : ℕ) (direc : Word) : EStateM Trap μ (List Byte) := do
  let bytes ← copyString mem room direc 1
  if bytes.length < room then return bytes
  else throw .memory

def execName (r4 : Word) : EStateM Trap μ (List Byte) := copyTerminated mem 128 r4

def createName (r4 : Word) : EStateM Trap μ (List Byte) := copyString mem 128 r4 1

def openName (r4 : Word) : EStateM Trap μ (List Byte) := copyTerminated mem 128 r4

def writeBuffer (r4 : Word) (size : ℕ) : EStateM Trap μ (List Byte) :=
  copyTerminated mem (size + 1) r4

def copyOut : Word → List Byte → EStateM Trap μ Unit
  | _, [] => return ()
  | r4, b :: bytes => do
    let _ ← mem.writeMem r4 (b.signExtend 32)
    copyOut (r4 + 1) bytes

end Loops

def vmUser : UserMemory Vm where
  readMem addr := vmReadMem addr 1
  writeMem addr value := vmWriteMem addr 1 value

def Vm.physAddr (s : Vm) (writing : Bool) (addr : Word) : Option ℕ :=
  match translate (.tlb s.tlb) addr 1 writing with
  | .ok (.ok (pa, _)) => some pa
  | _ => none

def offset (a : Word) (k : ℕ) : Word := a + BitVec.ofNat 32 k

theorem offset_zero (a : Word) : offset a 0 = a := by
  simp [offset]

theorem offset_succ (a : Word) (k : ℕ) : offset (a + 1) k = offset a (k + 1) := by
  rw [offset, offset, BitVec.ofNat_add, BitVec.add_assoc, BitVec.add_comm 1]
  rfl

variable {s s' : Vm}

theorem physAddr_eq_some {writing : Bool} {addr : Word} {pa : ℕ}
    (h : s.physAddr writing addr = some pa) :
    ∃ i, s.tlb.lookup (addr.toNat / pageSize : ℕ) = some i ∧
      translate (.tlb s.tlb) addr 1 writing =
        .ok (.ok (pa, .tlb (Function.update s.tlb i ((s.tlb i).touch writing)))) := by
  unfold Vm.physAddr at h
  split at h
  · rename_i pa' mmu htr
    obtain rfl := Option.some.inj h
    obtain ⟨e, he⟩ | ⟨pa'', i, hi, -, hr⟩ := translate_tlb_cases htr
    · cases he
    · cases hr
      exact ⟨i, hi, htr⟩
  · cases h

theorem lookup_touch (t : Tlb) (i : Fin tlbSize) (w : Bool) (vpn : ℤ) :
    Tlb.lookup (Function.update t i ((t i).touch w)) vpn = t.lookup vpn := by
  unfold Tlb.lookup
  congr 1
  funext k
  by_cases hk : k = i
  · rw [hk, Function.update_self]
    rfl
  · rw [Function.update_of_ne hk]

theorem physAddr_eq (s : Vm) (writing : Bool) (addr : Word) :
    s.physAddr writing addr = (s.tlb.lookup (addr.toNat / pageSize : ℕ)).bind fun i =>
      if ((s.tlb i).readOnly && writing) = true then none
      else if (s.tlb i).physicalPage < 0 ∨ numPhysPages ≤ (s.tlb i).physicalPage then none
      else some ((s.tlb i).physicalPage.toNat * pageSize + addr.toNat % pageSize) := by
  have hm : misaligned addr 1 = false := rfl
  unfold Vm.physAddr translate
  simp only [hm, Bool.false_eq_true, if_false]
  cases hl : s.tlb.lookup (addr.toNat / pageSize : ℕ) with
  | none => rfl
  | some i =>
    simp only [TranslationEntry.access, Option.bind_some, bind, Except.bind]
    split_ifs with hro hpp hfit
    · rfl
    · rfl
    · rfl
    · have hoff : addr.toNat % pageSize < pageSize := Nat.mod_lt _ (by norm_num)
      simp only [pageSize, memorySize, numPhysPages] at *
      omega

theorem physAddr_touch {i : Fin tlbSize} {w : Bool} {mem : Memory} (writing : Bool)
    (addr : Word) :
    Vm.physAddr { s with
      tlb := Function.update s.tlb i ((s.tlb i).touch w), mainMemory := mem } writing addr =
      s.physAddr writing addr := by
  have htlb : ∀ k, (Function.update s.tlb i ((s.tlb i).touch w) k).readOnly =
      (s.tlb k).readOnly ∧ (Function.update s.tlb i ((s.tlb i).touch w) k).physicalPage =
        (s.tlb k).physicalPage := by
    intro k
    by_cases hk : k = i
    · rw [hk, Function.update_self]
      exact ⟨rfl, rfl⟩
    · rw [Function.update_of_ne hk]
      exact ⟨rfl, rfl⟩
  rw [physAddr_eq, physAddr_eq]
  simp only [lookup_touch, (htlb _).1, (htlb _).2]

theorem readMem_cached {addr : Word} {pa : ℕ} (h : s.physAddr false addr = some pa) :
    ∃ s', vmUser.readMem addr s = .ok (some ((s.mainMemory pa).signExtend 32)) s' ∧
      s'.mainMemory = s.mainMemory ∧ ∀ w x, s'.physAddr w x = s.physAddr w x := by
  obtain ⟨i, -, htr⟩ := physAddr_eq_some h
  refine ⟨{ s with tlb := Function.update s.tlb i ((s.tlb i).touch false) }, ?_, rfl,
    fun w x => physAddr_touch w x⟩
  simp only [vmUser, vmReadMem, translateOrServe, EStateM.apply_bind, EStateM.apply_get, htr,
    EStateM.apply_set, EStateM.apply_pure, Memory.read]

theorem readMem_uncached {addr : Word} {r : Option Word} (h : s.physAddr false addr = none)
    (hr : vmUser.readMem addr s = .ok r s') : r = none := by
  obtain ⟨o, s₁, htr, hr⟩ := EStateM.bind_eq_ok hr
  obtain ⟨pa, i, rfl, hi, hacc, -⟩ | ⟨rfl, -⟩ := translateOrServe_inv htr
  · have hm : misaligned addr 1 = false := rfl
    have htr : translate (.tlb s.tlb) addr 1 false =
        .ok (.ok (pa, .tlb (Function.update s.tlb i ((s.tlb i).touch false)))) := by
      simp only [translate, hm, Bool.false_eq_true, if_false, hi, hacc, bind, Except.bind]
    rw [Vm.physAddr, htr] at h
    cases h
  · cases hr
    rfl

theorem writeMem_cached {addr : Word} {pa : ℕ} (value : Word) (h : s.physAddr true addr = some pa) :
    ∃ s', vmUser.writeMem addr value s = .ok true s' ∧
      s'.mainMemory = s.mainMemory.store pa 1 value ∧ ∀ w x, s'.physAddr w x = s.physAddr w x := by
  obtain ⟨i, -, htr⟩ := physAddr_eq_some h
  refine ⟨{ s with
    tlb := Function.update s.tlb i ((s.tlb i).touch true)
    mainMemory := s.mainMemory.store pa 1 value }, ?_, rfl, fun w x => physAddr_touch w x⟩
  simp only [vmUser, vmWriteMem, translateOrServe, EStateM.apply_bind, EStateM.apply_get, htr,
    EStateM.apply_set, EStateM.apply_pure, EStateM.apply_modify]

/-- The bytes of a user memory that the kernel reaches without an exception, each at its place in
`mainMemory`. -/
structure ResidentMemory (μ : Type) extends UserMemory μ where
  place : μ → Bool → Word → Option ℕ
  mainMemory : μ → Memory
  place_lt : ∀ {m writing addr pa}, place m writing addr = some pa → pa < memorySize
  place_read : ∀ {m addr pa}, place m true addr = some pa → place m false addr = some pa
  read_placed : ∀ {m addr pa}, place m false addr = some pa → ∃ m',
    readMem addr m = .ok (some ((mainMemory m pa).signExtend 32)) m' ∧
      mainMemory m' = mainMemory m ∧ ∀ w x, place m' w x = place m w x
  write_placed : ∀ {m addr pa} (value : Word), place m true addr = some pa → ∃ m',
    writeMem addr value m = .ok true m' ∧
      mainMemory m' = (mainMemory m).store pa 1 value ∧ ∀ w x, place m' w x = place m w x

theorem physAddr_read {addr : Word} {pa : ℕ} (h : s.physAddr true addr = some pa) :
    s.physAddr false addr = some pa := by
  rw [physAddr_eq] at h ⊢
  cases hl : s.tlb.lookup (addr.toNat / pageSize : ℕ) with
  | none =>
    rw [hl] at h
    cases h
  | some i =>
    simp only [hl, Option.bind_some] at h ⊢
    split_ifs at h with h1 h2
    rw [if_neg (by simp), if_neg h2]
    exact h

theorem physAddr_lt {writing : Bool} {addr : Word} {pa : ℕ}
    (h : s.physAddr writing addr = some pa) : pa < memorySize := by
  rw [physAddr_eq] at h
  cases hl : s.tlb.lookup (addr.toNat / pageSize : ℕ) with
  | none =>
    rw [hl] at h
    cases h
  | some i =>
    simp only [hl, Option.bind_some] at h
    split_ifs at h with h1 h2
    obtain rfl := Option.some.inj h
    have hoff : addr.toNat % pageSize < pageSize := Nat.mod_lt _ (by norm_num)
    simp only [pageSize, memorySize, numPhysPages] at *
    omega

def vmResident : ResidentMemory Vm where
  toUserMemory := vmUser
  place := Vm.physAddr
  mainMemory s := s.mainMemory
  place_lt := physAddr_lt
  place_read := physAddr_read
  read_placed := readMem_cached
  write_placed := writeMem_cached

theorem writeMem_uncached {addr : Word} (h : s.physAddr true addr = none) (value value' : Word) :
    vmUser.writeMem addr value s = vmUser.writeMem addr value' s := by
  simp only [vmUser, vmWriteMem, EStateM.apply_bind]
  cases htr : translateOrServe addr 1 true s with
  | error t s₁ => rfl
  | ok o s₁ =>
    obtain ⟨pa, i, rfl, hi, hacc, -⟩ | ⟨rfl, -⟩ := translateOrServe_inv htr
    · have hm : misaligned addr 1 = false := rfl
      have htr : translate (.tlb s.tlb) addr 1 true =
          .ok (.ok (pa, .tlb (Function.update s.tlb i ((s.tlb i).touch true)))) := by
        simp only [translate, hm, Bool.false_eq_true, if_false, hi, hacc, bind, Except.bind]
      rw [Vm.physAddr, htr] at h
      cases h
    · rfl

def outcome {α : Type} (x : Kernel α) (s : Vm) : Except Trap α :=
  match x s with
  | .ok a _ => .ok a
  | .error t _ => .error t

def stringAt (m : Word → Byte) : ℕ → Word → Except Trap (List Byte)
  | 0, _ => .error .memory
  | room + 1, a => if m a = 0 then .ok [0] else (stringAt m room (a + 1)).map (m a :: ·)

def terminatedAt (m : Word → Byte) (room : ℕ) (a : Word) : Except Trap (List Byte) := do
  let bytes ← stringAt m room a
  if bytes.length < room then return bytes else throw .memory

def Vm.shows (s : Vm) (m : Word → Byte) : Prop :=
  ∀ x pa, s.physAddr false x = some pa → s.mainMemory pa = m x

def Vm.stringCached (s : Vm) (m : Word → Byte) (room : ℕ) (a : Word) : Prop :=
  ∀ k ≤ room, (∀ j < k, m (offset a j) ≠ 0) → (s.physAddr false (offset a k)).isSome = true

variable {m : Word → Byte}

theorem setWidth_signExtend_byte (b : Byte) : (b.signExtend 32).setWidth 8 = b := by
  ext i hi
  have h32 : i < 32 := by omega
  simp [BitVec.getElem_signExtend, hi, h32]

theorem extractLsb'_signExtend_byte (b : Byte) : (b.signExtend 32).extractLsb' 0 8 = b := by
  rw [← BitVec.setWidth_eq_extractLsb' (by norm_num), setWidth_signExtend_byte]

theorem signExtend_eq_zero (b : Byte) : b.signExtend 32 = 0 ↔ b = 0 := by
  constructor
  · intro h
    rw [← setWidth_signExtend_byte b, h]
    rfl
  · rintro rfl
    rfl

theorem copyString_cached (room : ℕ) (a c : Word) (hm : s.shows m) (hc : s.stringCached m room a) :
    outcome (copyString vmUser room a c) s = stringAt m room a := by
  induction room generalizing s a c with
  | zero =>
    obtain ⟨pa, hpa⟩ := Option.isSome_iff_exists.mp (hc 0 le_rfl (by simp))
    rw [offset_zero] at hpa
    obtain ⟨s', hread, -, -⟩ := readMem_cached hpa
    simp [outcome, copyString, hread, stringAt]
  | succ room ih =>
    obtain ⟨pa, hpa⟩ := Option.isSome_iff_exists.mp (hc 0 (Nat.zero_le _) (by simp))
    rw [offset_zero] at hpa
    obtain ⟨s', hread, hmem, hphys⟩ := readMem_cached hpa
    rw [hm a pa hpa] at hread
    simp only [outcome, copyString, EStateM.apply_bind, hread, Option.getD_some,
      signExtend_eq_zero, stringAt, EStateM.apply_ite, setWidth_signExtend_byte]
    by_cases h0 : m a = 0
    · simp [h0]
    · have hm' : s'.shows m := by
        intro x pa' hx
        rw [hmem]
        exact hm x pa' (by rw [← hphys]; exact hx)
      have hc' : s'.stringCached m room (a + 1) := by
        intro k hk hnz
        rw [hphys, offset_succ]
        refine hc (k + 1) (by omega) fun j hj => ?_
        cases j with
        | zero => rwa [offset_zero]
        | succ j =>
          rw [← offset_succ]
          exact hnz j (by omega)
      rw [if_neg h0, if_neg h0, ← ih (a + 1) ((m a).signExtend 32) hm' hc', outcome]
      cases copyString vmUser room (a + 1) ((m a).signExtend 32) s' <;> rfl

/-- The character that is left in `c` when the first byte that is not cached is byte `k`. -/
def stale (m : Word → Byte) (a : Word) (k : ℕ) : Byte := if k = 0 then 1 else m (offset a (k - 1))

theorem copyString_stale (room : ℕ) {k : ℕ} {a c : Word} {bytes : List Byte} (hm : s.shows m)
    (hc : ∀ j < k, (s.physAddr false (offset a j)).isSome = true)
    (hnz : ∀ j < k, m (offset a j) ≠ 0) (hk : s.physAddr false (offset a k) = none)
    (h : copyString vmUser room a c s = .ok bytes s') :
    bytes[k]? = some (if k = 0 then c.setWidth 8 else m (offset a (k - 1))) := by
  induction k generalizing room s a c bytes with
  | zero =>
    rw [offset_zero] at hk
    cases room with
    | zero =>
      obtain ⟨r, s₁, -, h⟩ := EStateM.bind_eq_ok h
      cases h
    | succ room =>
      obtain ⟨r, s₁, hr, h⟩ := EStateM.bind_eq_ok h
      obtain rfl := readMem_uncached hk hr
      simp only [Option.getD_none, EStateM.apply_ite] at h
      split_ifs at h with hz
      · cases h
        simp [hz]
      · obtain ⟨rest, s₂, -, h⟩ := EStateM.bind_eq_ok h
        cases h
        simp
  | succ k ih =>
    cases room with
    | zero =>
      obtain ⟨r, s₁, -, h⟩ := EStateM.bind_eq_ok h
      cases h
    | succ room =>
      obtain ⟨pa, hpa⟩ := Option.isSome_iff_exists.mp (hc 0 (by omega))
      have h0 := hnz 0 (by omega)
      rw [offset_zero] at hpa h0
      obtain ⟨s₁, hread, hmem, hphys⟩ := readMem_cached hpa
      rw [hm a pa hpa] at hread
      obtain ⟨r, s₂, hr, h⟩ := EStateM.bind_eq_ok h
      rw [hread] at hr
      cases hr
      simp only [Option.getD_some, signExtend_eq_zero, if_neg h0] at h
      obtain ⟨rest, s₃, hrest, h⟩ := EStateM.bind_eq_ok h
      cases h
      have hm' : s₁.shows m := by
        intro x pa' hx
        rw [hmem]
        exact hm x pa' (by rw [← hphys]; exact hx)
      have := ih room hm' (fun j hj => by rw [hphys, offset_succ]; exact hc (j + 1) (by omega))
        (fun j hj => by rw [offset_succ]; exact hnz (j + 1) (by omega))
        (by rw [hphys, offset_succ]; exact hk) hrest
      rw [List.getElem?_cons_succ, this, setWidth_signExtend_byte]
      cases k with
      | zero => simp [offset_zero]
      | succ k => exact congrArg (fun x => some (m x)) (offset_succ a k)

theorem stringAt_getElem? {room k : ℕ} {a : Word} {bytes : List Byte}
    (h : stringAt m room a = .ok bytes) (hnz : ∀ j < k, m (offset a j) ≠ 0) :
    bytes[k]? = some (m (offset a k)) := by
  induction room generalizing k a bytes with
  | zero => cases h
  | succ room ih =>
    simp only [stringAt] at h
    split_ifs at h with h0
    · cases h
      cases k with
      | zero => simp [offset_zero, h0]
      | succ k => exact absurd (by rwa [offset_zero]) (hnz 0 (by omega))
    · cases hrest : stringAt m room (a + 1) with
      | error t =>
        rw [hrest] at h
        cases h
      | ok rest =>
        rw [hrest] at h
        cases h
        cases k with
        | zero => simp [offset_zero]
        | succ k =>
          rw [List.getElem?_cons_succ, ih hrest fun j hj => ?_, offset_succ]
          rw [offset_succ]
          exact hnz (j + 1) (by omega)

/-- The kernel gets the string at `a` although a byte of it is not cached: then the first
such byte is equal to the character that was left in `c`. -/
theorem cached_or_stale {room : ℕ} {a : Word} {bytes : List Byte} (hm : s.shows m)
    (h : outcome (copyString vmUser room a 1) s = .ok bytes) (href : stringAt m room a = .ok bytes)
    {k : ℕ} (hnz : ∀ j < k, m (offset a j) ≠ 0) :
    (s.physAddr false (offset a k)).isSome = true ∨
      ∃ j ≤ k, s.physAddr false (offset a j) = none ∧ m (offset a j) = stale m a j := by
  by_contra hno
  obtain ⟨hk, hstale⟩ := not_or.mp hno
  have hex : ∃ j, s.physAddr false (offset a j) = none := ⟨k, by simpa using hk⟩
  have hmin := Nat.find_spec hex
  have hle : Nat.find hex ≤ k := Nat.find_min' hex (by simpa using hk)
  obtain ⟨s', hs'⟩ : ∃ s', copyString vmUser room a 1 s = .ok bytes s' := by
    unfold outcome at h
    cases hx : copyString vmUser room a 1 s with
    | ok b s' =>
      rw [hx] at h
      cases h
      exact ⟨s', rfl⟩
    | error t s' =>
      rw [hx] at h
      cases h
  have hgot := copyString_stale room hm (k := Nat.find hex)
    (fun j hj => by simpa [Option.isSome_iff_ne_none] using Nat.find_min hex hj)
    (fun j hj => hnz j (by omega)) hmin hs'
  rw [stringAt_getElem? href fun j hj => hnz j (by omega), Option.some.injEq] at hgot
  exact hstale ⟨Nat.find hex, hle, hmin, hgot⟩

theorem outcome_copyTerminated (room : ℕ) (a : Word) (s : Vm) :
    outcome (copyTerminated vmUser room a) s = (do
      let bytes ← outcome (copyString vmUser room a 1) s
      if bytes.length < room then return bytes else throw .memory) := by
  simp only [outcome, copyTerminated, EStateM.apply_bind, EStateM.apply_ite]
  cases copyString vmUser room a 1 s with
  | error t s' => rfl
  | ok bytes s' =>
    dsimp only [bind, Except.bind]
    split_ifs <;> rfl

theorem copyTerminated_cached {room : ℕ} {a : Word} (hm : s.shows m)
    (hc : s.stringCached m room a) :
    outcome (copyTerminated vmUser room a) s = terminatedAt m room a := by
  rw [outcome_copyTerminated, copyString_cached room a 1 hm hc]
  rfl

def Vm.userByte (s : Vm) (addr : Word) : Option Byte :=
  (s.physAddr false addr).map s.mainMemory

/-- All bytes of the buffer are cached and writable, in different places. -/
def Vm.bufferCached (s : Vm) (n : ℕ) (a : Word) : Prop :=
  (∀ k < n, (s.physAddr true (offset a k)).isSome = true) ∧
    ∀ k < n, ∀ j < n, s.physAddr true (offset a k) = s.physAddr true (offset a j) → k = j

section Placed

variable {μ : Type} (R : ResidentMemory μ) {m : μ}

def ResidentMemory.Holds (a : Word) (data : List Byte) (m : μ) : Prop :=
  ∀ j < data.length, ∃ pa, R.place m false (offset a j) = some pa ∧
    data[j]? = some (R.mainMemory m pa)

structure ResidentMemory.Buffer (n : ℕ) (a : Word) (m : μ) : Prop where
  placed : ∀ k < n, (R.place m true (offset a k)).isSome = true
  apart : ∀ k < n, ∀ j < n, R.place m true (offset a k) = R.place m true (offset a j) → k = j

variable {R}

theorem ResidentMemory.Buffer.tail {n : ℕ} {a : Word} (h : R.Buffer (n + 1) a m) {m' : μ}
    (hp : ∀ w x, R.place m' w x = R.place m w x) : R.Buffer n (a + 1) m' := by
  refine ⟨fun k hk => ?_, fun k hk j hj hkj => ?_⟩
  · rw [hp, offset_succ]
    exact h.placed (k + 1) (by omega)
  · rw [hp, hp, offset_succ, offset_succ] at hkj
    have := h.apart (k + 1) (by omega) (j + 1) (by omega) hkj
    omega

theorem copyOut_place {m' : μ} {bytes : List Byte} {a : Word}
    (hc : ∀ k < bytes.length, (R.place m true (offset a k)).isSome = true)
    (h : copyOut R.toUserMemory a bytes m = .ok () m') (w : Bool) (x : Word) :
    R.place m' w x = R.place m w x := by
  induction bytes generalizing m a with
  | nil =>
    cases h
    rfl
  | cons b bytes ih =>
    rw [List.length_cons] at hc
    obtain ⟨pa₀, hpa₀⟩ := Option.isSome_iff_exists.mp (hc 0 (by omega))
    rw [offset_zero] at hpa₀
    obtain ⟨m₁, hw, -, hphys⟩ := R.write_placed (b.signExtend 32) hpa₀
    simp only [copyOut, EStateM.apply_bind, hw] at h
    rw [ih (fun k hk => ?_) h, hphys]
    rw [hphys, offset_succ]
    exact hc (k + 1) (by omega)

theorem copyOut_placed {bytes : List Byte} {a : Word} (h : R.Buffer bytes.length a m) :
    ∃ m', copyOut R.toUserMemory a bytes m = .ok () m' ∧
      (∀ w x, R.place m' w x = R.place m w x) ∧
      (∀ k < bytes.length, ∀ pa, R.place m true (offset a k) = some pa →
        bytes[k]? = some (R.mainMemory m' pa)) ∧
      ∀ pa, (∀ k < bytes.length, R.place m true (offset a k) ≠ some pa) →
        R.mainMemory m' pa = R.mainMemory m pa := by
  induction bytes generalizing m a with
  | nil => exact ⟨m, rfl, fun _ _ => rfl, fun k hk => by simp at hk, fun _ _ => rfl⟩
  | cons b bytes ih =>
    simp only [List.length_cons] at h ⊢
    obtain ⟨pa₀, hpa₀⟩ := Option.isSome_iff_exists.mp (h.placed 0 (by omega))
    rw [offset_zero] at hpa₀
    obtain ⟨m₁, hw, hmem, hphys⟩ := R.write_placed (b.signExtend 32) hpa₀
    obtain ⟨m', hout, hphys', hbytes, hrest⟩ := ih (h.tail hphys)
    simp only [hphys, offset_succ] at hphys' hbytes hrest
    have hnot : ∀ k < bytes.length, R.place m true (offset a (k + 1)) ≠ some pa₀ := by
      intro k hk hk'
      have := h.apart (k + 1) (by omega) 0 (by omega) (by rw [hk', offset_zero, hpa₀])
      omega
    refine ⟨m', ?_, hphys', fun k hk pa hpa => ?_, fun pa hpa => ?_⟩
    · simp only [copyOut, EStateM.apply_bind, hw, hout]
    · cases k with
      | zero =>
        rw [offset_zero, hpa₀] at hpa
        obtain rfl := Option.some.inj hpa
        rw [hrest pa₀ hnot, hmem]
        simp [Memory.store, extractLsb'_signExtend_byte]
      | succ k => exact hbytes k (by omega) pa hpa
    · rw [hrest pa fun k hk => hpa (k + 1) (by omega), hmem]
      have hne : pa ≠ pa₀ := by
        rintro rfl
        exact hpa 0 (by omega) (by rw [offset_zero, hpa₀])
      simp only [Memory.store]
      rw [if_neg (by omega)]

end Placed

/-- Bytes of a buffer up to one that is not cached: whatever that one is, the call does the
same. -/
theorem copyOut_uncached {front back : List Byte} {a : Word} (b b' : Byte)
    (hc : ∀ k < front.length, (s.physAddr true (offset a k)).isSome = true)
    (hn : s.physAddr true (offset a front.length) = none) :
    copyOut vmUser a (front ++ b :: back) s = copyOut vmUser a (front ++ b' :: back) s := by
  induction front generalizing s a with
  | nil =>
    rw [List.length_nil, offset_zero] at hn
    simp only [List.nil_append, copyOut, EStateM.apply_bind]
    rw [writeMem_uncached hn (b.signExtend 32) (b'.signExtend 32)]
  | cons x front ih =>
    rw [List.length_cons] at hc hn
    obtain ⟨pa₀, hpa₀⟩ := Option.isSome_iff_exists.mp (hc 0 (by omega))
    rw [offset_zero] at hpa₀
    obtain ⟨s₁, hw, -, hphys⟩ := writeMem_cached (x.signExtend 32) hpa₀
    simp only [List.cons_append, copyOut, EStateM.apply_bind, hw]
    exact ih (fun k hk => by rw [hphys, offset_succ]; exact hc (k + 1) (by omega))
      (by rw [hphys, offset_succ]; exact hn)

theorem copyOut_iff (s : Vm) (n : ℕ) (a : Word) :
    (∀ bytes : List Byte, bytes.length = n → ∃ s', copyOut vmUser a bytes s = .ok () s' ∧
      ∀ k < n, s'.userByte (offset a k) = bytes[k]?) ↔ s.bufferCached n a := by
  constructor
  · intro h
    have hc : ∀ k < n, (s.physAddr true (offset a k)).isSome = true := by
      by_contra hno
      push Not at hno
      have hex : ∃ k, k < n ∧ s.physAddr true (offset a k) = none := by
        obtain ⟨k, hk, hnone⟩ := hno
        exact ⟨k, hk, by simpa using hnone⟩
      obtain ⟨hlt, hnone⟩ := Nat.find_spec hex
      obtain ⟨d, hd⟩ := Nat.exists_eq_add_of_lt hlt
      -- two buffers that differ in the byte that is lost
      have hlen : ∀ b : Byte, (List.replicate (Nat.find hex) (0 : Byte) ++
          b :: List.replicate d 0).length = n := by
        intro b
        simp only [List.length_append, List.length_replicate, List.length_cons]
        omega
      obtain ⟨s₁, h₁, hb₁⟩ := h _ (hlen 0)
      obtain ⟨s₂, h₂, hb₂⟩ := h _ (hlen 1)
      rw [copyOut_uncached 0 1 (fun k hk => ?_) (by rwa [List.length_replicate]), h₂] at h₁
      · cases h₁
        have := (hb₁ _ hlt).symm.trans (hb₂ _ hlt)
        simp at this
      · rw [List.length_replicate] at hk
        have := Nat.find_min hex hk
        rw [not_and] at this
        simpa [Option.isSome_iff_ne_none] using this (by omega)
    refine ⟨hc, fun k hk j hj hkj => ?_⟩
    by_contra hne
    have hlen : ((List.range n).map fun i => if i = k then (1 : Byte) else 0).length = n := by simp
    obtain ⟨s', hout, hb⟩ := h _ hlen
    have hphys := copyOut_place (R := vmResident) (m := s)
      (fun i hi => hc i (by rwa [hlen] at hi)) hout
    have hsame : s'.userByte (offset a k) = s'.userByte (offset a j) := by
      obtain ⟨pa, hpa⟩ := Option.isSome_iff_exists.mp (hc k hk)
      have hk' : s'.physAddr false (offset a k) = some pa := (hphys _ _).trans (physAddr_read hpa)
      have hj' : s'.physAddr false (offset a j) = some pa :=
        (hphys _ _).trans (physAddr_read (hkj ▸ hpa))
      rw [Vm.userByte, Vm.userByte, hk', hj']
    rw [hb k hk, hb j hj] at hsame
    simp [hk, hj, Ne.symm hne] at hsame
  · rintro ⟨hc, hi⟩ bytes rfl
    obtain ⟨s', hout, hphys, hbytes, -⟩ := copyOut_placed (R := vmResident) (m := s) ⟨hc, hi⟩
    refine ⟨s', hout, fun k hk => ?_⟩
    obtain ⟨pa, hpa⟩ := Option.isSome_iff_exists.mp (hc k hk)
    rw [Vm.userByte, show s'.physAddr false (offset a k) = some pa from
      (hphys false _).trans (physAddr_read hpa), Option.map_some, hbytes k hk pa hpa]
    rfl

/-- What the five calls copy, for a user memory `m`. The names and the data are those of `m`
if the bytes read are cached when the call is made, and otherwise only if the first byte
that is not cached happens to be the character before it. `Read` delivers every sequence of
`n` bytes exactly if the buffer is cached. -/
theorem copies_transparent {s : Vm} {m : Word → Byte} (hm : s.shows m) (a : Word) :
    (s.stringCached m 128 a →
      outcome (execName vmUser a) s = terminatedAt m 128 a ∧
      outcome (openName vmUser a) s = terminatedAt m 128 a ∧
      outcome (createName vmUser a) s = stringAt m 128 a) ∧
    (∀ size, s.stringCached m (size + 1) a →
      outcome (writeBuffer vmUser a size) s = terminatedAt m (size + 1) a) ∧
    (∀ room bytes, outcome (copyString vmUser room a 1) s = .ok bytes →
      stringAt m room a = .ok bytes → ∀ k, (∀ j < k, m (offset a j) ≠ 0) →
        (s.physAddr false (offset a k)).isSome = true ∨
          ∃ j ≤ k, s.physAddr false (offset a j) = none ∧ m (offset a j) = stale m a j) ∧
    ∀ n, (∀ bytes : List Byte, bytes.length = n → ∃ s', copyOut vmUser a bytes s = .ok () s' ∧
      ∀ k < n, s'.userByte (offset a k) = bytes[k]?) ↔ s.bufferCached n a := by
  refine ⟨fun hc => ⟨?_, ?_, ?_⟩, fun size hc => ?_, fun room bytes h href k hnz => ?_,
    fun n => copyOut_iff s n a⟩
  · exact copyTerminated_cached hm hc
  · exact copyTerminated_cached hm hc
  · exact copyString_cached 128 a 1 hm hc
  · exact copyTerminated_cached hm hc
  · exact cached_or_stale hm h href hnz

/-- The bytes that the TLB shows, and zeros elsewhere. -/
def Vm.view (s : Vm) (addr : Word) : Byte := (s.userByte addr).getD 0

theorem shows_view (s : Vm) : s.shows s.view := by
  intro x pa h
  simp [Vm.view, Vm.userByte, h]

def storeName : List Access :=
  [.store (pageAddr 1) 1 0x61, .store (pageAddr 1 + 1) 1 0x62, .store (pageAddr 1 + 2) 1 0]

theorem storeName_open :
    ∃ s m, storeName.foldlM tryPaged (bootVm, bootVm.space.image) = some (s, m) ∧
      outcome (openName vmUser (pageAddr 1)) s = .ok [0x61, 0x62, 0] := by
  have hrun : (storeName.foldlM tryPaged (bootVm, bootVm.space.image)).any (fun x : Vm × Flat =>
      decide (∀ k : ℕ, k < 3 → (x.1.physAddr false (offset (pageAddr 1) k)).isSome = true) &&
      decide (x.1.view (offset (pageAddr 1) 2) = 0) &&
      decide (terminatedAt x.1.view 128 (pageAddr 1) = .ok [0x61, 0x62, 0])) = true := by
    decide +kernel
  obtain ⟨⟨s, m⟩, hs, hx⟩ := (Option.any_eq_true _ _).mp hrun
  simp only [Bool.and_eq_true, decide_eq_true_eq] at hx
  obtain ⟨⟨hc, h0⟩, href⟩ := hx
  refine ⟨s, m, hs, ?_⟩
  rw [← href]
  refine ((copies_transparent (shows_view s) (pageAddr 1)).1 fun k _ hnz => hc k ?_).2.1
  by_contra hk
  exact hnz 2 (by omega) h0

def nameProgram : NoffHeader := ⟨⟨0, 0, 0⟩, ⟨0, 40, 128⟩, ⟨128, 0, 3968⟩, by decide⟩

def nameVm : Vm := { bootVm with
  space := .new nameProgram (List.replicate noffHeaderSize 0 ++ [0x61, 0x62]) }

theorem boot_nameVm : Boot (nameVm, nameVm.space.image) :=
  ⟨⟨nameProgram, _, rfl⟩, fun i => by revert i; decide, fun _ => ⟨rfl, rfl⟩, rfl, rfl, rfl⟩

/-- The name of a file is read as `ab` or as `\x01b`, for one and the same user memory: after the
program has loaded a byte of it, and before. -/
theorem untouchedName_open :
    ∃ s s' m, Reachable Boot PagedStep (s, m) ∧ Reachable Boot PagedStep (s', m) ∧
      (∀ k < 3, some (m (offset (pageAddr 0) k).toNat) = [0x61, 0x62, 0][k]?) ∧
      outcome (openName vmUser (pageAddr 0)) s = .ok [0x61, 0x62, 0] ∧
      outcome (openName vmUser (pageAddr 0)) s' = .ok [1, 0x62, 0] := by
  have hrun : (tryPaged (nameVm, nameVm.space.image) (.load (pageAddr 0) 1)).any
      (fun x : Vm × Flat =>
        decide (outcome (openName vmUser (pageAddr 0)) x.1 = .ok [0x61, 0x62, 0])) = true := by
    decide +kernel
  have himage : ∀ k < 3,
      some (nameVm.space.image (offset (pageAddr 0) k).toNat) = [0x61, 0x62, 0][k]? := by
    decide +kernel
  have hboot : outcome (openName vmUser (pageAddr 0)) nameVm = .ok [1, 0x62, 0] := by
    decide +kernel
  obtain ⟨⟨s, m⟩, hs, hx⟩ := (Option.any_eq_true _ _).mp hrun
  obtain rfl : m = nameVm.space.image := tryPaged_flat hs
  rw [decide_eq_true_eq] at hx
  exact ⟨s, nameVm, _, .step (.init boot_nameVm) (pagedStep_of_tryPaged hs), .init boot_nameVm,
    himage, hx, hboot⟩

end Nachos
