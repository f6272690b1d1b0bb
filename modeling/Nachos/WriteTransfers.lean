import Nachos.PlainMemory
import Nachos.SystemCallGuards
import Nachos.UserNames

/-! What `Nachos_Write` passes to the host for an open file, and the program `copy.c`. The buffer
and the transfer have the size that the user gives, but the loop that fills the buffer ends at
the first zero of the user memory, and stores one more zero behind it. -/
namespace Nachos

open Syscall

section Characters

variable {μ : Type} {R : ResidentMemory μ} {m : μ}

theorem ResidentMemory.Holds.tail {a : Word} {b : Byte} {data : List Byte}
    (h : R.Holds a (b :: data) m) {m' : μ} (hmem : R.mainMemory m' = R.mainMemory m)
    (hp : ∀ w x, R.place m' w x = R.place m w x) : R.Holds (a + 1) data m' := by
  intro j hj
  obtain ⟨pa, hpa, hb⟩ := h (j + 1) (Nat.succ_lt_succ hj)
  refine ⟨pa, ?_, ?_⟩
  · rw [hp, offset_succ]
    exact hpa
  · rw [hmem]
    exact hb

theorem characters_holds {a c : Word} {data : List Byte} (h : R.Holds a data m) :
    ∃ m', characters R.toUserMemory data.length a c m =
        .ok (data.map (BitVec.signExtend 32)) m' ∧
      R.mainMemory m' = R.mainMemory m ∧ ∀ w x, R.place m' w x = R.place m w x := by
  induction data generalizing a c m with
  | nil => exact ⟨m, rfl, rfl, fun _ _ => rfl⟩
  | cons b data ih =>
    obtain ⟨pa, hpa, hb⟩ := h 0 (Nat.succ_pos _)
    rw [offset_zero] at hpa
    obtain ⟨m₁, hread, hmem₁, hp₁⟩ := R.read_placed hpa
    obtain ⟨m', hrest, hmem, hp⟩ := ih (h.tail hmem₁ hp₁)
    rw [← Option.some.inj hb] at hread
    refine ⟨m', characters_cons hread hrest, hmem.trans hmem₁, fun w x => ?_⟩
    rw [hp, hp₁]

theorem ResidentMemory.Holds.take {a : Word} {data : List Byte} (h : R.Holds a data m) {n : ℕ}
    (hn : n ≤ data.length) : R.Holds a (data.take n) m := by
  intro j hj
  rw [List.length_take, min_eq_left hn] at hj
  obtain ⟨pa, hpa, hb⟩ := h j (by omega)
  exact ⟨pa, hpa, by rw [List.getElem?_take_of_lt hj, hb]⟩

theorem characters_text {a : Word} {text rest : List Byte} (h : R.Holds a (text ++ 0 :: rest) m) :
    ∃ m', characters R.toUserMemory (text.length + 1) a 1 m = .ok (extended text) m' ∧
      R.mainMemory m' = R.mainMemory m ∧ ∀ w x, R.place m' w x = R.place m w x := by
  have hlen : (text ++ 0 :: rest).length = text.length + 1 + rest.length := by
    simp only [List.length_append, List.length_cons]
    omega
  have htake : (text ++ 0 :: rest).take (text.length + 1) = text ++ [0] := by
    rw [List.take_append, List.take_of_length_le (by omega), Nat.add_sub_cancel_left]
    rfl
  have hstr := h.take (n := text.length + 1) (by omega)
  rw [htake] at hstr
  obtain ⟨m', hm', hrest⟩ := characters_holds (c := 1) hstr
  rw [List.length_append, List.length_singleton] at hm'
  exact ⟨m', hm', hrest⟩

theorem writeBuffer_unterminated {a : Word} {data bytes : List Byte} {m' : μ}
    (h : R.Holds a data m) (h0 : 0 ∉ data) :
    writeBuffer R.toUserMemory a data.length m ≠ .ok bytes m' := by
  intro hb
  obtain ⟨hb, hlen⟩ := copyTerminated_eq_ok_iff.mp hb
  obtain ⟨stored, hr, rfl⟩ := copyString_eq_ok_iff.mp hb
  obtain ⟨hno, -, -⟩ | ⟨cs, -, rfl, -, -, hcs⟩ := rounds_cases hr
  · cases hno
  · rw [List.length_map, List.length_append, List.length_singleton] at hlen
    obtain ⟨m₁, hdata, -⟩ := characters_holds (c := 1) h
    obtain ⟨k, hk⟩ := Nat.exists_eq_add_of_le (by omega : cs.length + 1 ≤ data.length)
    rw [hk] at hdata
    obtain ⟨m₂, htake⟩ := characters_take hdata
    rw [hcs] at htake
    have hmem : (0 : Word) ∈ (data.map (BitVec.signExtend 32)).take (cs.length + 1) := by
      injection htake with hcs'
      rw [← hcs']
      exact List.mem_append_right _ (List.mem_singleton_self 0)
    exact not_mem_signExtend h0 (List.mem_of_mem_take hmem)

end Characters

section Calls

variable {μ T : Type} {mem : UserMemory μ} {host : Host} {s s' : Sys μ T}

def afterTransfer (s : Sys μ T) (m' : μ) (result : ℤ) : Sys μ T :=
  { s with
    mem := m'
    r2 := BitVec.ofInt 32 result
    actions := s.actions ++ [.consoleP] ++ [.consoleV]
    prevPC := s.pc
    pc := s.nextPC
    nextPC := s.nextPC + 4 }

def transferred (bytes : List Byte) (size : ℕ) : List Byte :=
  (bytes ++ List.replicate (size + 1) 0).take size

theorem isOpened_of_holds {t : NachosOpenFilesTable} {id : ℤ} (h : t.holds id = true) :
    t.isOpened id = .ok true := by
  rw [NachosOpenFilesTable.isOpened, HandleTable.test_inRange (HandleTable.inRange_of_holds h)]
  exact congrArg _ h

theorem nachosWrite_ok (hid : 3 ≤ s.r6.toInt) (ho : (s.nop s.currentThread).holds s.r6.toInt = true)
    {fd : ℤ} (hfd : (s.nop s.currentThread).getUnixHandle s.r6.toInt = .ok fd) {size : ℕ}
    (hsize : (s.r5 + 1).toInt = size + 1) {bytes : List Byte} {m' : μ}
    (hb : writeBuffer mem s.r4 size s.mem = .ok bytes m') :
    nachosWrite mem host s =
      .ok () (afterTransfer s m' (host.write fd (transferred bytes size))) := by
  have hroom : (s.r5 + 1).toInt.toNat = size + 1 := by omega
  simp only [nachosWrite, EStateM.apply_bind, EStateM.apply_get,
    buffer_pos (by omega : 0 < (s.r5 + 1).toInt),
    act_apply, onMem_apply, hroom, Nat.add_sub_cancel, hb, EStateM.apply_ite,
    if_neg (by omega : ¬s.r6.toInt = 0), if_neg (by omega : ¬s.r6.toInt = 1),
    if_neg (by omega : ¬s.r6.toInt = 2), nop_apply, isOpened_of_holds ho, check_ok, if_true, hfd,
    writeResult_apply, returnFromSystemCall_apply]
  rfl

/-- What `write` of the host is given by `Nachos_Write`. -/
def passedBytes (mem : UserMemory μ) (s : Sys μ T) : List Byte :=
  match writeBuffer mem s.r4 ((s.r5 + 1).toInt.toNat - 1) s.mem with
  | .ok bytes _ => transferred bytes ((s.r5 + 1).toInt.toNat - 1)
  | .error _ _ => []

theorem nachosWrite_returns (h : nachosWrite mem host s = .ok () s') :
    0 < (s.r5 + 1).toInt ∧ ∃ bytes m',
      writeBuffer mem s.r4 ((s.r5 + 1).toInt.toNat - 1) s.mem = .ok bytes m' := by
  rw [nachosWrite, EStateM.apply_bind, EStateM.apply_get] at h
  dsimp only at h
  by_cases hroom : 0 < (s.r5 + 1).toInt
  · refine ⟨hroom, ?_⟩
    obtain ⟨room, s₁, hbuf, h⟩ := EStateM.bind_eq_ok h
    rw [buffer_pos hroom] at hbuf
    cases hbuf
    obtain ⟨_, s₂, hact, h⟩ := EStateM.bind_eq_ok h
    rw [act_apply] at hact
    cases hact
    obtain ⟨bytes, s₃, hmem, -⟩ := EStateM.bind_eq_ok h
    rw [onMem_apply] at hmem
    split at hmem
    · cases hmem
      exact ⟨bytes, _, by assumption⟩
    · cases hmem
  · rw [EStateM.apply_bind, buffer_nonpos hroom] at h
    cases h

theorem nachosWrite_passes (hid : 3 ≤ s.r6.toInt)
    (ho : (s.nop s.currentThread).holds s.r6.toInt = true) {fd : ℤ}
    (hfd : (s.nop s.currentThread).getUnixHandle s.r6.toInt = .ok fd)
    (h : nachosWrite mem host s = .ok () s') :
    s'.r2 = BitVec.ofInt 32 (host.write fd (passedBytes mem s)) := by
  obtain ⟨hpos, bytes, m', hb⟩ := nachosWrite_returns h
  rw [nachosWrite_ok hid ho hfd (by omega) hb] at h
  cases h
  rw [passedBytes, hb]
  rfl

theorem nachosRead_ok (hid : 3 ≤ s.r6.toInt) (ho : (s.nop s.currentThread).holds s.r6.toInt = true)
    {fd : ℤ} (hfd : (s.nop s.currentThread).getUnixHandle s.r6.toInt = .ok fd)
    (hsize : 0 < s.r5.toInt) {bytes : List Byte} {m' : μ}
    (hr : host.read fd s.r5.toInt.toNat = some bytes)
    (hout : copyOut mem s.r4 bytes s.mem = .ok () m') :
    nachosRead mem host s = .ok () (afterTransfer s m' bytes.length) := by
  simp only [nachosRead, EStateM.apply_bind, EStateM.apply_get, buffer_pos hsize, act_apply,
    EStateM.apply_ite,
    if_neg (by omega : ¬s.r6.toInt = 0), if_neg (by omega : ¬(s.r6.toInt = 1 ∨ s.r6.toInt = 2)),
    nop_apply, isOpened_of_holds ho, check_ok, if_true, hfd, hr, onMem_apply, hout,
    writeResult_apply, returnFromSystemCall_apply]
  rfl

/-- The host gets `data`, whatever it answers, and no store is outside the buffer. -/
structure WritesExactly (mem : UserMemory μ) (s : Sys μ T) (data : List Byte) : Prop where
  stays : StaysIn mem (data.length + 1) 1 s.r4 s.mem
  passes : ∀ host, ∃ fd s', (s.nop s.currentThread).getUnixHandle s.r6.toInt = .ok fd ∧
    nachosWrite mem host s = .ok () s' ∧ s'.r2 = BitVec.ofInt 32 (host.write fd data)

/-- The data ends with a zero, and with nothing else behind its first zero. -/
def ZeroPadded (data : List Byte) : Prop :=
  ∃ text k, 0 ∉ text ∧ data = text ++ List.replicate (k + 1) 0

theorem transferred_text (text : List Byte) (n : ℕ) :
    transferred (text ++ [0]) (text.length + (n + 1)) = text ++ List.replicate (n + 1) 0 := by
  rw [transferred, List.append_assoc, List.take_append, List.take_of_length_le (by omega),
    Nat.add_sub_cancel_left, List.singleton_append, ← List.replicate_succ, List.take_replicate,
    min_eq_left (by omega)]

theorem toInt_add_one {w : Word} (h : 0 ≤ w.toInt) (hpos : 0 < (w + 1).toInt) :
    (w + 1).toInt = w.toInt + 1 := by
  have h1 : (1 : Word).toInt = 1 := rfl
  have hlt := BitVec.toInt_lt (x := w)
  rw [BitVec.toInt_add, h1, Int.bmod_def] at hpos ⊢
  split_ifs at hpos ⊢ <;> omega

theorem toInt_add_one_of_lt {w : Word} (h : 0 ≤ w.toInt) (hlt : w.toInt + 1 < 2 ^ 31) :
    (w + 1).toInt = w.toInt + 1 := by
  have h1 : (1 : Word).toInt = 1 := rfl
  rw [BitVec.toInt_add, h1, Int.bmod_def]
  split_ifs <;> omega

/-- A host whose answer tells whether it was given `data`. -/
def comparingHost (data : List Byte) : Host where
  fgets := none
  read _ _ := none
  read_length := length_le_of_none_eq_some
  write _ bytes := if bytes = data then 1 else 0
  openUnix _ := -1
  newSemaphore := 0

variable {R : ResidentMemory μ}

theorem writeBuffer_text {a : Word} {text rest : List Byte} {m : μ}
    (h : R.Holds a (text ++ 0 :: rest) m) (h0 : 0 ∉ text) :
    ∃ m', writeBuffer R.toUserMemory a (text ++ 0 :: rest).length m = .ok (text ++ [0]) m' ∧
      R.mainMemory m' = R.mainMemory m ∧ ∀ w x, R.place m' w x = R.place m w x := by
  obtain ⟨m', hm', hrest⟩ := characters_text h
  refine ⟨m', (copyTerminated_delivered h0 hm').mpr ?_, hrest⟩
  simp only [List.length_append, List.length_cons]
  omega

theorem passedBytes_text {text rest : List Byte} (h : R.Holds s.r4 (text ++ 0 :: rest) s.mem)
    (h0 : 0 ∉ text) (hroom : (s.r5 + 1).toInt.toNat - 1 = (text ++ 0 :: rest).length) :
    passedBytes R.toUserMemory s = text ++ List.replicate (rest.length + 1) 0 := by
  obtain ⟨m', hb, -⟩ := writeBuffer_text h h0
  rw [passedBytes, hroom, hb]
  dsimp only
  rw [← transferred_text, List.length_append, List.length_cons]

theorem zeroPadded_iff {data : List Byte} (h : R.Holds s.r4 data s.mem)
    (hroom : (s.r5 + 1).toInt.toNat - 1 = data.length) :
    ZeroPadded data ↔ 0 ∈ data ∧ passedBytes R.toUserMemory s = data := by
  constructor
  · rintro ⟨text, k, h0, rfl⟩
    rw [List.replicate_succ] at h hroom
    refine ⟨by simp, ?_⟩
    rw [passedBytes_text h h0 hroom, List.length_replicate]
  · rintro ⟨hzero, hpassed⟩
    obtain ⟨text, rest, rfl, h0⟩ := List.eq_append_cons_of_mem hzero
    exact ⟨text, rest.length, h0, by rw [← passedBytes_text h h0 hroom, hpassed]⟩

theorem writesExactly_iff {data : List Byte} (hdata : R.Holds s.r4 data s.mem)
    (hsize : s.r5.toInt = data.length) (hid : 3 ≤ s.r6.toInt)
    (ho : (s.nop s.currentThread).holds s.r6.toInt = true) :
    WritesExactly R.toUserMemory s data ↔ 0 < (s.r5 + 1).toInt ∧ ZeroPadded data := by
  have hfd : (s.nop s.currentThread).getUnixHandle s.r6.toInt = .ok _ := HandleTable.lookup_holds ho
  have hroom : 0 < (s.r5 + 1).toInt → (s.r5 + 1).toInt = data.length + 1 := by
    intro hpos
    rw [toInt_add_one (by omega) hpos, hsize]
  constructor
  · intro h
    obtain ⟨fd, s', hfd', hw, hr2⟩ := h.passes (comparingHost data)
    obtain ⟨hpos, bytes, m', hb⟩ := nachosWrite_returns hw
    have hlen := hroom hpos
    have hroom' : (s.r5 + 1).toInt.toNat - 1 = data.length := by omega
    have hzero : 0 ∈ data := by
      by_contra h0
      exact writeBuffer_unterminated hdata h0 (hroom' ▸ hb)
    have hpassed : passedBytes R.toUserMemory s = data := by
      rw [nachosWrite_passes hid ho hfd' hw] at hr2
      by_contra hne
      simp only [comparingHost, if_neg hne, if_true] at hr2
      exact absurd hr2 (by decide)
    exact ⟨hpos, (zeroPadded_iff hdata hroom').mpr ⟨hzero, hpassed⟩⟩
  · rintro ⟨hpos, text, k, h0, rfl⟩
    obtain ⟨m', hb, -⟩ := writeBuffer_text hdata h0
    obtain ⟨m₁, hm₁, -⟩ := characters_text hdata
    have hlen : (text ++ 0 :: List.replicate k 0).length = text.length + (k + 1) := by simp
    refine ⟨?_, fun host => ?_⟩
    · rw [extended_eq, ← List.length_map (BitVec.signExtend 32)] at hm₁
      refine staysIn_of_string hm₁ (not_mem_signExtend h0) ?_
      rw [List.replicate_succ, hlen, List.length_map]
      omega
    · refine ⟨_, _, hfd, nachosWrite_ok hid ho hfd (hroom hpos) hb, ?_⟩
      rw [List.replicate_succ, hlen, transferred_text]
      rfl

end Calls

section Copy

variable {μ T : Type} {R : ResidentMemory μ} {s s' : Sys μ T}

/-- The files of the copy: reads deliver the rest of the input, writes are taken whole. -/
def fileHost (input : List Byte) : Host where
  fgets := none
  read _ n := some (input.take n)
  read_length fd n bytes h := by
    rw [← Option.some.inj h]
    exact List.length_take_le n input
  write _ bytes := bytes.length
  openUnix _ := -1
  newSemaphore := 0

/-- At most `turns` turns of `while ((n = Read(buf, k, in)) > 0) Write(buf, n, out)`, with the
rest of the input: what is written, and whether the loop has ended. -/
def copyProgram (mem : UserMemory μ) (k inp out : Word) :
    ℕ → Sys μ T → List Byte → Except Trap (List Byte × Bool)
  | 0, _, _ => .ok ([], false)
  | turns + 1, s, input =>
    match nachosRead mem (fileHost input) { s with r5 := k, r6 := inp } with
    | .error t _ => .error t
    | .ok _ s =>
      if 0 < s.r2.toInt then
        let s := { s with r5 := s.r2, r6 := out }
        match nachosWrite mem (fileHost input) s with
        | .error t _ => .error t
        | .ok _ s' => do
          let (rest, ended) ← copyProgram mem k inp out turns s' (input.drop k.toInt.toNat)
          return (passedBytes mem s ++ rest, ended)
      else .ok ([], true)

/-- The program may run: the files are open and the buffer is resident and writable. -/
structure CopyReady (R : ResidentMemory μ) (k inp out : Word) (n : ℕ) (s : Sys μ T) : Prop where
  input : 3 ≤ inp.toInt ∧ (s.nop s.currentThread).holds inp.toInt = true
  output : 3 ≤ out.toInt ∧ (s.nop s.currentThread).holds out.toInt = true
  size : k.toInt = n ∧ 0 < n
  buffer : R.Buffer n s.r4 s.mem

theorem ResidentMemory.Buffer.length_le {n : ℕ} {a : Word} {m : μ} (h : R.Buffer n a m) :
    n ≤ memorySize := by
  have hlt : ∀ k : Fin n, (R.place m true (offset a k)).getD 0 < memorySize := by
    intro k
    obtain ⟨pa, hpa⟩ := Option.isSome_iff_exists.mp (h.placed k k.isLt)
    rw [hpa]
    exact R.place_lt hpa
  have hinj : Function.Injective fun k : Fin n =>
      (⟨(R.place m true (offset a k)).getD 0, hlt k⟩ : Fin memorySize) := by
    intro k j hkj
    obtain ⟨pa, hpa⟩ := Option.isSome_iff_exists.mp (h.placed k k.isLt)
    obtain ⟨pa', hpa'⟩ := Option.isSome_iff_exists.mp (h.placed j j.isLt)
    have heq := Fin.val_eq_of_eq hkj
    simp only [hpa, hpa', Option.getD_some] at heq
    exact Fin.ext (h.apart k k.isLt j j.isLt (by rw [hpa, hpa', heq]))
  simpa using Fintype.card_le_of_injective _ hinj

theorem ResidentMemory.Buffer.mono {n n' : ℕ} {a : Word} {m : μ} (h : R.Buffer n a m)
    (hn : n' ≤ n) : R.Buffer n' a m :=
  ⟨fun k hk => h.placed k (by omega), fun k hk j hj => h.apart k (by omega) j (by omega)⟩

theorem ResidentMemory.Buffer.same {n : ℕ} {a : Word} {m m' : μ} (h : R.Buffer n a m)
    (hp : ∀ w x, R.place m' w x = R.place m w x) : R.Buffer n a m' := by
  refine ⟨fun k hk => ?_, fun k hk j hj hkj => ?_⟩
  · rw [hp]
    exact h.placed k hk
  · rw [hp, hp] at hkj
    exact h.apart k hk j hj hkj

theorem read_chunk {k inp out : Word} {n : ℕ} (h : CopyReady R k inp out n s)
    (input : List Byte) : ∃ m₁,
    nachosRead R.toUserMemory (fileHost input) { s with r5 := k, r6 := inp } =
      .ok () (afterTransfer { s with r5 := k, r6 := inp } m₁ (input.take n).length) ∧
      R.Holds s.r4 (input.take n) m₁ ∧ R.Buffer n s.r4 m₁ := by
  have hbuf := h.buffer.mono (List.length_take_le n input)
  obtain ⟨m₁, hout, hp, hbytes, -⟩ := copyOut_placed hbuf
  have hn : k.toInt.toNat = n := by
    have := h.size.1
    omega
  refine ⟨m₁, ?_, fun j hj => ?_, h.buffer.same hp⟩
  · have hpos : 0 < k.toInt := by
      have := h.size
      omega
    exact nachosRead_ok (s := { s with r5 := k, r6 := inp }) h.input.1 h.input.2
      (HandleTable.lookup_holds h.input.2) hpos (by rw [fileHost, hn]) hout
  · obtain ⟨pa, hpa⟩ := Option.isSome_iff_exists.mp (hbuf.placed j hj)
    exact ⟨pa, by rw [hp]; exact R.place_read hpa, hbytes j hj pa hpa⟩

/-- `Write` of a chunk: either there is no zero in it and the call does not come back, or as many
bytes are written as it has. -/
theorem write_chunk {chunk : List Byte} (h : R.Holds s.r4 chunk s.mem)
    (hroom : (s.r5 + 1).toInt = chunk.length + 1) (hid : 3 ≤ s.r6.toInt)
    (ho : (s.nop s.currentThread).holds s.r6.toInt = true) (host : Host) :
    (¬ZeroPadded chunk ∧ ∃ t s', nachosWrite R.toUserMemory host s = .error t s') ∨
      ∃ m' result, nachosWrite R.toUserMemory host s = .ok () (afterTransfer s m' result) ∧
        (∀ w x, R.place m' w x = R.place s.mem w x) ∧
        (passedBytes R.toUserMemory s).length = chunk.length ∧
        (passedBytes R.toUserMemory s = chunk ↔ ZeroPadded chunk) := by
  have hroom' : (s.r5 + 1).toInt.toNat - 1 = chunk.length := by omega
  by_cases hzero : 0 ∈ chunk
  · have hiff := zeroPadded_iff h hroom'
    obtain ⟨text, rest, rfl, h0⟩ := List.eq_append_cons_of_mem hzero
    obtain ⟨m', hb, -, hp⟩ := writeBuffer_text h h0
    refine Or.inr ⟨m', _, nachosWrite_ok hid ho (HandleTable.lookup_holds ho) hroom hb, hp, ?_, ?_⟩
    · rw [passedBytes_text h h0 hroom']
      simp
    · rw [hiff]
      exact ⟨fun hpassed => ⟨hzero, hpassed⟩, And.right⟩
  · refine Or.inl ⟨fun hpad => hzero ((zeroPadded_iff h hroom').mp hpad).1, ?_⟩
    cases hw : nachosWrite R.toUserMemory host s with
    | error t s' => exact ⟨t, s', rfl⟩
    | ok _ s' =>
      obtain ⟨-, bytes, m', hb⟩ := nachosWrite_returns hw
      exact absurd (hroom' ▸ hb) (writeBuffer_unterminated h hzero)

def PaddedChunks (n : ℕ) (input : List Byte) : Prop :=
  ∀ i, i * n < input.length → ZeroPadded ((input.drop (i * n)).take n)

theorem paddedChunks_drop {n : ℕ} {input : List Byte} (h : input ≠ []) :
    PaddedChunks n input ↔ ZeroPadded (input.take n) ∧ PaddedChunks n (input.drop n) := by
  constructor
  · intro hp
    refine ⟨?_, fun i hi => ?_⟩
    · have := hp 0 (by rw [zero_mul]; exact List.length_pos_iff.mpr h)
      rwa [zero_mul, List.drop_zero] at this
    · rw [List.length_drop] at hi
      have := hp (i + 1) (by rw [add_one_mul]; omega)
      rwa [List.drop_drop, Nat.add_comm, ← add_one_mul]
  · rintro ⟨h0, hp⟩ i hi
    cases i with
    | zero =>
      rw [zero_mul, List.drop_zero]
      exact h0
    | succ i =>
      rw [add_one_mul] at hi
      have := hp i (by rw [List.length_drop]; omega)
      rwa [List.drop_drop, Nat.add_comm, ← add_one_mul] at this

theorem toInt_ofInt_length {bytes : List Byte} (h : bytes.length ≤ memorySize) :
    (BitVec.ofInt 32 bytes.length).toInt = bytes.length := by
  have hsize : memorySize = 4096 := rfl
  exact BitVec.toInt_ofInt_eq_self (by decide) (by omega) (by omega)

theorem CopyReady.afterTransfer {k inp out r5 r6 : Word} {n : ℕ} {m' : μ} {result : ℤ}
    (h : CopyReady R k inp out n s) (hbuf : R.Buffer n s.r4 m') :
    CopyReady R k inp out n (afterTransfer { s with r5 := r5, r6 := r6 } m' result) :=
  ⟨h.input, h.output, h.size, hbuf⟩

theorem append_eq_iff {front chunk rest : List Byte} (hlen : front.length = chunk.length)
    (x : Except Trap (List Byte × Bool)) :
    (do let (r, ended) ← x; return (front ++ r, ended)) = Except.ok (chunk ++ rest, true) ↔
      front = chunk ∧ x = .ok (rest, true) := by
  cases x with
  | error t => exact iff_of_false nofun fun h => nomatch h.2
  | ok r =>
    obtain ⟨r, ended⟩ := r
    simp only [bind, Except.bind, pure, Except.pure, Except.ok.injEq, Prod.mk.injEq]
    constructor
    · rintro ⟨happ, rfl⟩
      obtain ⟨rfl, rfl⟩ := List.append_inj happ hlen
      exact ⟨rfl, rfl, rfl⟩
    · rintro ⟨rfl, rfl, rfl⟩
      exact ⟨rfl, rfl⟩

/-- The copy is the input exactly if every chunk that is read is padded with zeros. -/
theorem copyProgram_iff {k inp out : Word} {n turns : ℕ} {input : List Byte}
    (h : CopyReady R k inp out n s) (hturns : input.length < turns) :
    copyProgram R.toUserMemory k inp out turns s input = .ok (input, true) ↔
      PaddedChunks n input := by
  induction turns generalizing s input with
  | zero => exact absurd hturns (Nat.not_lt_zero _)
  | succ turns ih =>
    obtain ⟨m₁, hread, hholds, hbuf⟩ := read_chunk h input
    have hlen := toInt_ofInt_length ((List.length_take_le n input).trans h.buffer.length_le)
    have hr2 : (afterTransfer { s with r5 := k, r6 := inp } m₁ (input.take n).length).r2.toInt =
        (input.take n).length := hlen
    simp only [copyProgram, hread, hr2]
    by_cases hin : input = []
    · subst hin
      rw [List.take_nil, if_neg (by simp)]
      exact iff_of_true rfl fun i hi => absurd hi (Nat.not_lt_zero _)
    · have hpos : 0 < (input.take n).length := by
        have := List.length_pos_iff.mpr hin
        rw [List.length_take]
        exact lt_min h.size.2 this
      rw [if_pos (by exact_mod_cast hpos), paddedChunks_drop hin,
        show k.toInt.toNat = n by rw [h.size.1, Int.toNat_natCast]]
      have hroom : ((afterTransfer { s with r5 := k, r6 := inp } m₁
          (input.take n).length).r2 + 1).toInt = (input.take n).length + 1 := by
        have hmax : n ≤ 4096 := h.buffer.length_le
        have hn := List.length_take_le n input
        rw [toInt_add_one_of_lt (by omega) (by omega), hr2]
      obtain ⟨hbad, t, s', hw⟩ | ⟨m', result, hw, hp, hsame, hiff⟩ :=
        write_chunk (s := { afterTransfer { s with r5 := k, r6 := inp } m₁
            (input.take n).length with
          r5 := (afterTransfer { s with r5 := k, r6 := inp } m₁ (input.take n).length).r2
          r6 := out }) hholds hroom h.output.1 h.output.2 (fileHost input)
      · simp only [hw]
        exact iff_of_false (by simp) fun hpad => hbad hpad.1
      · have hready : CopyReady R k inp out n (afterTransfer { afterTransfer
            { s with r5 := k, r6 := inp } m₁ (input.take n).length with
            r5 := (afterTransfer { s with r5 := k, r6 := inp } m₁ (input.take n).length).r2
            r6 := out } m' result) :=
          (h.afterTransfer hbuf).afterTransfer (hbuf.same hp)
        have hdrop : (input.drop n).length < turns := by
          rw [List.length_drop]
          have := List.length_pos_iff.mpr hin
          have := h.size.2
          omega
        simp only [hw]
        rw [← hiff, ← ih hready hdrop, ← append_eq_iff hsame, List.take_append_drop]

end Copy

/-- `Write` for an open file and resident data passes the data exactly if it ends with its first
zero or with zeros only, and so a copy through `Read` and `Write` is the input exactly if that
holds of every chunk. -/
theorem transfers_exact_iff {μ T : Type} {R : ResidentMemory μ} {s : Sys μ T} {data : List Byte}
    (hdata : R.Holds s.r4 data s.mem) (hsize : s.r5.toInt = data.length) (hid : 3 ≤ s.r6.toInt)
    (ho : (s.nop s.currentThread).holds s.r6.toInt = true) :
    (WritesExactly R.toUserMemory s data ↔ 0 < (s.r5 + 1).toInt ∧ ZeroPadded data) ∧
      ∀ k inp out n turns input, CopyReady R k inp out n s → input.length < turns →
        (copyProgram R.toUserMemory k inp out turns s input = .ok (input, true) ↔
          PaddedChunks n input) :=
  ⟨writesExactly_iff hdata hsize hid ho, fun _ _ _ _ _ _ h hturns => copyProgram_iff h hturns⟩

def twoFiles : NachosOpenFilesTable :=
  match (NachosOpenFilesTable.new 0).openHandle 10 with
  | .error _ => .new 0
  | .ok (_, t) =>
    match t.openHandle 11 with
    | .error _ => t
    | .ok (_, t) => t

def writeCall (mainMemory : Memory) (size : Word) : Sys Plain ℕ where
  r2 := 7
  r4 := 0
  r5 := size
  r6 := 4
  prevPC := 0
  pc := 0
  nextPC := 4
  mem := plainWith mainMemory
  currentThread := 0
  nop _ := twoFiles
  smt := .new 0
  ejecutables := []
  archivoAE := -1
  actions := []

theorem twoFiles_holds : twoFiles.holds 3 = true ∧ twoFiles.holds 4 = true := by
  decide +kernel

theorem writeCall_place (mainMemory : Memory) (size : Word) {k : ℕ} (hk : k < 8) (w : Bool) :
    plainResident.place (writeCall mainMemory size).mem w (offset 0 k) = some k :=
  (by decide +kernel : ∀ k < 8, ∀ w, (plainWith fun _ => 0).mmu.locate (offset 0 k) 1 w = some k)
    k hk w

theorem writeCall_holds {mainMemory : Memory} {size : Word} {data : List Byte}
    (hlen : data.length ≤ 8) (hdata : ∀ j < data.length, data[j]? = some (mainMemory j)) :
    plainResident.Holds (writeCall mainMemory size).r4 data (writeCall mainMemory size).mem :=
  fun j hj => ⟨j, writeCall_place mainMemory size (by omega) false, hdata j hj⟩

theorem writeCall_ready (mainMemory : Memory) (size : Word) :
    CopyReady plainResident 4 3 4 4 (writeCall mainMemory size) := by
  refine ⟨⟨by decide, twoFiles_holds.1⟩, ⟨by decide, twoFiles_holds.2⟩, by decide, ?_, ?_⟩
  · intro k hk
    exact Option.isSome_iff_exists.mpr ⟨k, writeCall_place mainMemory size (by omega) true⟩
  · intro k hk j hj h
    have hk' := writeCall_place mainMemory size (by omega : k < 8) true
    have hj' := writeCall_place mainMemory size (by omega : j < 8) true
    exact Option.some.inj (hk'.symm.trans (h.trans hj'))

theorem transfers_exact_string :
    plainResident.Holds 0 [0x61, 0x61, 0x61, 0] (writeCall (letters 3) 4).mem ∧
      WritesExactly plainUser (writeCall (letters 3) 4) [0x61, 0x61, 0x61, 0] ∧
      copyProgram plainUser 4 3 4 5 (writeCall (letters 3) 4) [0x61, 0x61, 0x61, 0] =
        .ok ([0x61, 0x61, 0x61, 0], true) := by
  have hdata : plainResident.Holds (writeCall (letters 3) 4).r4 [0x61, 0x61, 0x61, 0]
      (writeCall (letters 3) 4).mem := writeCall_holds (by decide) (by decide)
  have hpad : ZeroPadded [0x61, 0x61, 0x61, 0] := ⟨[0x61, 0x61, 0x61], 0, by decide, rfl⟩
  obtain ⟨hw, hc⟩ := transfers_exact_iff hdata (by decide) (by decide) twoFiles_holds.2
  refine ⟨hdata, hw.mpr ⟨by decide, hpad⟩,
    (hc 4 3 4 4 5 _ (writeCall_ready (letters 3) 4) (by decide)).mpr fun i hi => ?_⟩
  obtain rfl : i = 0 := by
    simp only [List.length_cons, List.length_nil] at hi
    omega
  exact hpad

theorem ZeroPadded.getLast? {data : List Byte} (h : ZeroPadded data) :
    data.getLast? = some 0 := by
  obtain ⟨text, k, -, rfl⟩ := h
  rw [List.replicate_succ', ← List.append_assoc, List.getLast?_concat]

/-- Text without a zero overruns the buffer, and behind an embedded zero the data is lost. -/
theorem transfers_broken :
    (plainResident.Holds 0 [0x61] (writeCall (letters 3) 1).mem ∧
      ¬WritesExactly plainUser (writeCall (letters 3) 1) [0x61]) ∧
    (plainResident.Holds 0 [0x61, 0, 0x62]
        (writeCall (fun a => [0x61, 0, 0x62].getD a 0) 3).mem ∧
      ¬WritesExactly plainUser (writeCall (fun a => [0x61, 0, 0x62].getD a 0) 3)
        [0x61, 0, 0x62]) ∧
    copyProgram plainUser 4 3 4 5 (writeCall (letters 3) 4) [0x61] ≠ .ok ([0x61], true) := by
  have h₁ : plainResident.Holds (writeCall (letters 3) 1).r4 [0x61]
      (writeCall (letters 3) 1).mem := writeCall_holds (by decide) (by decide)
  have h₂ : plainResident.Holds (writeCall (fun a => [0x61, 0, 0x62].getD a 0) 3).r4
      [0x61, 0, 0x62] (writeCall (fun a => [0x61, 0, 0x62].getD a 0) 3).mem :=
    writeCall_holds (by decide) (by decide)
  refine ⟨⟨h₁, fun h => ?_⟩, ⟨h₂, fun h => ?_⟩, fun h => ?_⟩
  · have hpad := ((writesExactly_iff h₁ (by decide) (by decide) twoFiles_holds.2).mp h).2
    exact absurd hpad.getLast? (by decide)
  · have hpad := ((writesExactly_iff h₂ (by decide) (by decide) twoFiles_holds.2).mp h).2
    exact absurd hpad.getLast? (by decide)
  · have hpad := (copyProgram_iff (writeCall_ready (letters 3) 4) (by decide)).mp h 0 (by decide)
    exact absurd hpad.getLast? (by decide)

end Nachos
