import Nachos.PlainMemory

/-! The buffers `name[128]` of `Nachos_Exec`, `Nachos_Create` and `Nachos_Open` and the loops
that fill them (`exception.cc`). A loop stores the characters one after the other and only
looks at the character, so how far it stores is decided by the user memory. -/
namespace Nachos

section Names

variable {μ : Type} (mem : UserMemory μ)

/-- What `n` calls of `ReadMem` from `direc` on leave in `c`. -/
def characters : ℕ → Word → Word → EStateM Trap μ (List Word)
  | 0, _, _ => return []
  | n + 1, direc, c => do
    let k ← mem.readMem direc
    let rest ← characters n (direc + 1) (k.getD c)
    return k.getD c :: rest

/-- At most `n` rounds of the loop: what has been stored, from index 0 on, and whether the loop
has ended. -/
def rounds : ℕ → Word → Word → EStateM Trap μ (List Word × Bool)
  | 0, _, _ => return ([], false)
  | n + 1, direc, c => do
    let k ← mem.readMem direc
    if k.getD c = 0 then return ([0], true)
    else
      let r ← rounds n (direc + 1) (k.getD c)
      return (k.getD c :: r.1, r.2)

/-- No store of the loop, and no store behind it (`after` of them), is at an index outside a
buffer of `room` bytes. -/
def StaysIn (room after : ℕ) (r4 : Word) (m : μ) : Prop :=
  ∀ n stored ended m', rounds mem n r4 1 m = .ok (stored, ended) m' →
    stored.length + (if ended then after else 0) ≤ room

/-- The stores of `Nachos_Exec` and `Nachos_Open`: one more zero follows the loop. -/
def OpenStays (r4 : Word) (m : μ) : Prop := StaysIn mem 128 1 r4 m

def CreateStays (r4 : Word) (m : μ) : Prop := StaysIn mem 128 0 r4 m

/-- A zero is among the first `room` characters, or one of the first `room + 1` calls of
`ReadMem` does not come back. -/
def EndsWithin (room : ℕ) (r4 : Word) (m : μ) : Prop :=
  ∀ cs m', characters mem (room + 1) r4 1 m = .ok cs m' → 0 ∈ cs.take room

def NotLast (room : ℕ) (r4 : Word) (m : μ) : Prop :=
  ∀ cs m', characters mem (room + 1) r4 1 m = .ok (cs ++ [0]) m' → 0 ∈ cs

variable {mem} {m m' : μ}

theorem characters_cons {n : ℕ} {direc c : Word} {k : Option Word} {m₁ : μ} {cs : List Word}
    (hk : mem.readMem direc m = .ok k m₁)
    (h : characters mem n (direc + 1) (k.getD c) m₁ = .ok cs m') :
    characters mem (n + 1) direc c m = .ok (k.getD c :: cs) m' := by
  simp only [characters, EStateM.apply_bind, hk, h, EStateM.apply_pure]

theorem characters_length {n : ℕ} {direc c : Word} {cs : List Word}
    (h : characters mem n direc c m = .ok cs m') : cs.length = n := by
  induction n generalizing direc c cs m with
  | zero =>
    cases h
    rfl
  | succ n ih =>
    obtain ⟨k, m₁, -, h⟩ := EStateM.bind_eq_ok h
    obtain ⟨rest, m₂, hrest, h⟩ := EStateM.bind_eq_ok h
    cases h
    rw [List.length_cons, ih hrest]

theorem rounds_of_characters {n : ℕ} {direc c : Word} {cs : List Word}
    (h : characters mem n direc c m = .ok cs m') (h0 : 0 ∉ cs) :
    rounds mem n direc c m = .ok (cs, false) m' := by
  induction n generalizing direc c cs m with
  | zero =>
    cases h
    rfl
  | succ n ih =>
    obtain ⟨k, m₁, hk, h⟩ := EStateM.bind_eq_ok h
    obtain ⟨rest, m₂, hrest, h⟩ := EStateM.bind_eq_ok h
    cases h
    rw [List.mem_cons, not_or] at h0
    simp only [rounds, EStateM.apply_bind, hk, EStateM.apply_ite, if_neg (Ne.symm h0.1),
      ih hrest h0.2, EStateM.apply_pure]

theorem rounds_of_string {n : ℕ} {direc c : Word} {cs : List Word}
    (h : characters mem (cs.length + 1) direc c m = .ok (cs ++ [0]) m') (h0 : 0 ∉ cs)
    (hn : cs.length < n) : rounds mem n direc c m = .ok (cs ++ [0], true) m' := by
  induction cs generalizing n direc c m with
  | nil =>
    obtain ⟨n, rfl⟩ := Nat.exists_eq_add_one.mpr hn
    obtain ⟨k, m₁, hk, h⟩ := EStateM.bind_eq_ok h
    have hz : k.getD c = 0 ∧ m₁ = m' := by simpa [characters] using h
    simp only [rounds, EStateM.apply_bind, hk, EStateM.apply_ite, if_pos hz.1, hz.2,
      EStateM.apply_pure, List.nil_append]
  | cons x cs ih =>
    obtain ⟨n, rfl⟩ := Nat.exists_eq_add_one.mpr (Nat.zero_lt_of_lt hn)
    obtain ⟨k, m₁, hk, h⟩ := EStateM.bind_eq_ok h
    obtain ⟨rest, m₂, hrest, h⟩ := EStateM.bind_eq_ok h
    rw [EStateM.apply_pure, EStateM.Result.ok.injEq, List.cons_append, List.cons.injEq] at h
    obtain ⟨⟨rfl, rfl⟩, rfl⟩ := h
    rw [List.mem_cons, not_or] at h0
    simp only [rounds, EStateM.apply_bind, hk, EStateM.apply_ite, if_neg (Ne.symm h0.1),
      ih hrest h0.2 (Nat.lt_of_succ_lt_succ hn), EStateM.apply_pure, List.cons_append]

theorem rounds_cases {n : ℕ} {direc c : Word} {stored : List Word} {ended : Bool}
    (h : rounds mem n direc c m = .ok (stored, ended) m') :
    (ended = false ∧ 0 ∉ stored ∧ characters mem n direc c m = .ok stored m') ∨
      ∃ cs, ended = true ∧ stored = cs ++ [0] ∧ 0 ∉ cs ∧ cs.length < n ∧
        characters mem (cs.length + 1) direc c m = .ok (cs ++ [0]) m' := by
  induction n generalizing direc c stored m with
  | zero =>
    cases h
    exact Or.inl ⟨rfl, List.not_mem_nil, rfl⟩
  | succ n ih =>
    obtain ⟨k, m₁, hk, h⟩ := EStateM.bind_eq_ok h
    rw [EStateM.apply_ite] at h
    by_cases hz : k.getD c = 0
    · rw [if_pos hz] at h
      cases h
      refine Or.inr ⟨[], rfl, rfl, List.not_mem_nil, Nat.succ_pos n, ?_⟩
      rw [← hz]
      exact characters_cons hk rfl
    · rw [if_neg hz] at h
      obtain ⟨⟨rest, e⟩, m₂, hrest, h⟩ := EStateM.bind_eq_ok h
      cases h
      obtain ⟨rfl, h0, hcs⟩ | ⟨cs, rfl, rfl, h0, hlen, hcs⟩ := ih hrest
      · exact Or.inl ⟨rfl, List.not_mem_cons_of_ne_of_not_mem (Ne.symm hz) h0,
          characters_cons hk hcs⟩
      · exact Or.inr ⟨k.getD c :: cs, rfl, rfl,
          List.not_mem_cons_of_ne_of_not_mem (Ne.symm hz) h0, Nat.succ_lt_succ hlen,
          characters_cons hk hcs⟩

theorem characters_take {n k : ℕ} {direc c : Word} {cs : List Word}
    (h : characters mem (n + k) direc c m = .ok cs m') :
    ∃ m₁, characters mem n direc c m = .ok (cs.take n) m₁ := by
  induction n generalizing direc c cs m with
  | zero => exact ⟨m, rfl⟩
  | succ n ih =>
    rw [Nat.succ_add] at h
    obtain ⟨x, m₁, hx, h⟩ := EStateM.bind_eq_ok h
    obtain ⟨rest, m₂, hrest, h⟩ := EStateM.bind_eq_ok h
    cases h
    obtain ⟨m₃, h₃⟩ := ih hrest
    exact ⟨m₃, characters_cons hx h₃⟩

theorem rounds_of_overrun {room : ℕ} {direc c : Word} {cs : List Word}
    (h : characters mem (room + 1) direc c m = .ok cs m') (h0 : 0 ∉ cs.take room) :
    ∃ ended, rounds mem (room + 1) direc c m = .ok (cs, ended) m' := by
  have hlen := characters_length h
  have hcs : cs = cs.take room ++ [cs.get ⟨room, by omega⟩] := by
    rw [List.get_eq_getElem, ← List.take_succ_eq_append_getElem, ← hlen, List.take_length]
  by_cases hx : cs.get ⟨room, by omega⟩ = 0
  · rw [hx] at hcs
    have htake : (cs.take room).length = room := by
      rw [List.length_take, hlen]
      omega
    refine ⟨true, ?_⟩
    rw [hcs] at h ⊢
    exact rounds_of_string (by rw [htake]; exact h) h0 (by omega)
  · refine ⟨false, rounds_of_characters h ?_⟩
    rw [hcs, List.mem_append, List.mem_singleton, not_or]
    exact ⟨h0, Ne.symm hx⟩

theorem EndsWithin.length_le {room n : ℕ} {r4 : Word} {cs : List Word}
    (h : EndsWithin mem room r4 m) (hcs : characters mem n r4 1 m = .ok cs m')
    (h0 : 0 ∉ cs.take room) : n ≤ room := by
  by_contra hn
  obtain ⟨k, rfl⟩ := Nat.exists_eq_add_of_lt (not_le.mp hn)
  rw [Nat.add_right_comm] at hcs
  obtain ⟨m₁, h₁⟩ := characters_take hcs
  have h0' := h _ _ h₁
  rw [List.take_take, min_eq_left (Nat.le_succ room)] at h0'
  exact h0 h0'

theorem EndsWithin.string_le {room : ℕ} {r4 : Word} {cs : List Word}
    (h : EndsWithin mem room r4 m)
    (hcs : characters mem (cs.length + 1) r4 1 m = .ok (cs ++ [0]) m') (h0 : 0 ∉ cs) :
    cs.length + 1 ≤ room := by
  by_contra hlen
  refine hlen (h.length_le hcs ?_)
  rw [List.take_append_of_le_length (by omega)]
  exact fun hmem => h0 (List.mem_of_mem_take hmem)

theorem StaysIn.endsWithin {room after : ℕ} {r4 : Word} (h : StaysIn mem room after r4 m) :
    EndsWithin mem room r4 m := by
  intro cs m' hcs
  by_contra h0
  obtain ⟨ended, hr⟩ := rounds_of_overrun hcs h0
  have hle := h _ _ _ _ hr
  rw [characters_length hcs] at hle
  omega

theorem staysIn_iff (room : ℕ) (r4 : Word) (m : μ) :
    StaysIn mem room 0 r4 m ↔ EndsWithin mem room r4 m := by
  constructor
  · exact StaysIn.endsWithin
  · intro h n stored ended m' hr
    rw [ite_self, Nat.add_zero]
    obtain ⟨rfl, h0, hcs⟩ | ⟨cs, rfl, rfl, h0, -, hcs⟩ := rounds_cases hr
    · rw [characters_length hcs]
      exact h.length_le hcs fun hmem => h0 (List.mem_of_mem_take hmem)
    · rw [List.length_append, List.length_singleton]
      exact h.string_le hcs h0

theorem staysIn_terminated_iff (room : ℕ) (r4 : Word) (m : μ) :
    StaysIn mem (room + 1) 1 r4 m ↔
      EndsWithin mem (room + 1) r4 m ∧ NotLast mem room r4 m := by
  constructor
  · intro h
    refine ⟨h.endsWithin, fun cs m' hcs => ?_⟩
    by_contra h0
    have hlen : cs.length = room := by simpa using characters_length hcs
    have hle := h _ _ _ _ (rounds_of_string (hlen ▸ hcs) h0 (by omega : cs.length < room + 1))
    simp [hlen] at hle
  · rintro ⟨h, hlast⟩ n stored ended m' hr
    obtain ⟨rfl, h0, hcs⟩ | ⟨cs, rfl, rfl, h0, -, hcs⟩ := rounds_cases hr
    · rw [characters_length hcs]
      exact h.length_le hcs fun hmem => h0 (List.mem_of_mem_take hmem)
    · have hle := h.string_le hcs h0
      have hne : cs.length ≠ room := by
        rintro rfl
        exact h0 (hlast cs m' hcs)
      rw [List.length_append, List.length_singleton, if_pos rfl]
      omega

theorem staysIn_of_string {room after : ℕ} {r4 : Word} {cs : List Word}
    (hcs : characters mem (cs.length + 1) r4 1 m = .ok (cs ++ [0]) m') (h0 : 0 ∉ cs)
    (hlen : cs.length + 1 + after ≤ room) : StaysIn mem room after r4 m := by
  intro n stored ended m₁ hr
  by_cases hn : cs.length < n
  · rw [rounds_of_string hcs h0 hn] at hr
    cases hr
    rw [List.length_append, List.length_singleton, if_pos rfl]
    exact hlen
  · obtain ⟨rfl, -, hr⟩ | ⟨cs', rfl, rfl, -, hlt, -⟩ := rounds_cases hr
    · rw [characters_length hr, if_neg (by decide)]
      omega
    · rw [List.length_append, List.length_singleton, if_pos rfl]
      omega

/-- The loop of the model is the loop of the rounds, cut off at the end of the buffer. -/
theorem copyString_eq_ok_iff {room : ℕ} {direc c : Word} {bytes : List Byte} :
    copyString mem room direc c m = .ok bytes m' ↔ ∃ stored,
      rounds mem room direc c m = .ok (stored, true) m' ∧ bytes = stored.map (·.setWidth 8) := by
  induction room generalizing direc c bytes m with
  | zero =>
    constructor
    · intro h
      obtain ⟨k, m₁, -, h⟩ := EStateM.bind_eq_ok h
      cases h
    · rintro ⟨stored, h, -⟩
      cases h
  | succ room ih =>
    constructor
    · intro h
      obtain ⟨k, m₁, hk, h⟩ := EStateM.bind_eq_ok h
      simp only [rounds, EStateM.apply_bind, hk]
      by_cases hz : k.getD c = 0
      · rw [if_pos hz] at h ⊢
        cases h
        exact ⟨[0], rfl, rfl⟩
      · rw [if_neg hz] at h ⊢
        obtain ⟨rest, m₂, hrest, h⟩ := EStateM.bind_eq_ok h
        cases h
        obtain ⟨stored, hr, rfl⟩ := ih.mp hrest
        exact ⟨k.getD c :: stored, by simp only [EStateM.apply_bind, hr, EStateM.apply_pure], rfl⟩
    · rintro ⟨stored, h, rfl⟩
      obtain ⟨k, m₁, hk, h⟩ := EStateM.bind_eq_ok h
      simp only [copyString, EStateM.apply_bind, hk]
      by_cases hz : k.getD c = 0
      · rw [if_pos hz] at h ⊢
        cases h
        rfl
      · rw [if_neg hz] at h ⊢
        obtain ⟨⟨rest, e⟩, m₂, hrest, h⟩ := EStateM.bind_eq_ok h
        cases h
        have hcopy := ih.mpr ⟨rest, hrest, rfl⟩
        simp only [EStateM.apply_bind, hcopy, EStateM.apply_pure, List.map_cons]

theorem copyTerminated_eq_ok_iff {room : ℕ} {r4 : Word} {bytes : List Byte} :
    copyTerminated mem room r4 m = .ok bytes m' ↔
      copyString mem room r4 1 m = .ok bytes m' ∧ bytes.length < room := by
  constructor
  · intro h
    obtain ⟨b, m₁, hb, h⟩ := EStateM.bind_eq_ok h
    by_cases hlen : b.length < room
    · rw [if_pos hlen] at h
      cases h
      exact ⟨hb, hlen⟩
    · rw [if_neg hlen] at h
      cases h
  · rintro ⟨h, hlen⟩
    simp only [copyTerminated, EStateM.apply_bind, h, if_pos hlen, EStateM.apply_pure]

def extended (name : List Byte) : List Word := (name ++ [0]).map (BitVec.signExtend 32)

theorem extended_eq (name : List Byte) :
    extended name = name.map (BitVec.signExtend 32) ++ [0] := by
  rw [extended, List.map_append]
  rfl

theorem map_extended (name : List Byte) : (extended name).map (·.setWidth 8) = name ++ [0] := by
  rw [extended, List.map_map]
  exact (List.map_congr_left fun b _ => setWidth_signExtend_byte b).trans (List.map_id _)

theorem not_mem_signExtend {text : List Byte} (h0 : 0 ∉ text) :
    0 ∉ text.map (BitVec.signExtend 32) := by
  rw [List.mem_map]
  rintro ⟨b, hb, hz⟩
  rw [signExtend_eq_zero] at hz
  exact h0 (hz ▸ hb)

theorem copyString_delivered {room : ℕ} {r4 : Word} {name : List Byte} (h0 : 0 ∉ name)
    (h : characters mem (name.length + 1) r4 1 m = .ok (extended name) m') :
    copyString mem room r4 1 m = .ok (name ++ [0]) m' ↔ name.length < room := by
  rw [copyString_eq_ok_iff]
  constructor
  · rintro ⟨stored, hr, hname⟩
    obtain ⟨hno, -, -⟩ | ⟨cs, -, rfl, -, hlen, -⟩ := rounds_cases hr
    · cases hno
    · have := congrArg List.length hname
      simp only [List.length_append, List.length_map, List.length_singleton] at this
      omega
  · intro hlen
    rw [extended_eq] at h
    refine ⟨extended name, ?_, (map_extended name).symm⟩
    rw [extended_eq]
    exact rounds_of_string (by rwa [List.length_map]) (not_mem_signExtend h0)
      (by rwa [List.length_map])

theorem copyTerminated_delivered {room : ℕ} {r4 : Word} {name : List Byte} (h0 : 0 ∉ name)
    (h : characters mem (name.length + 1) r4 1 m = .ok (extended name) m') :
    copyTerminated mem room r4 m = .ok (name ++ [0]) m' ↔ name.length + 1 < room := by
  rw [copyTerminated_eq_ok_iff, copyString_delivered h0 h, List.length_append,
    List.length_singleton]
  omega

/-- The loops of `Nachos_Exec` and `Nachos_Open` stay in `name[128]` when a zero is among the
first 127 characters, that of `Nachos_Create` when it is among the first 128, or when a
`ReadMem` before the first store outside does not come back; and a string that `ReadMem`
delivers is the kernel's name up to length 126, and 127 for `Nachos_Create`. -/
theorem names_stay_iff (mem : UserMemory μ) (r4 : Word) (m : μ) :
    (OpenStays mem r4 m ↔ EndsWithin mem 128 r4 m ∧ NotLast mem 127 r4 m) ∧
      (CreateStays mem r4 m ↔ EndsWithin mem 128 r4 m) ∧
      ∀ name m', 0 ∉ name →
        characters mem (name.length + 1) r4 1 m = .ok (extended name) m' →
        (execName mem r4 m = .ok (name ++ [0]) m' ↔ name.length ≤ 126) ∧
          (openName mem r4 m = .ok (name ++ [0]) m' ↔ name.length ≤ 126) ∧
          (createName mem r4 m = .ok (name ++ [0]) m' ↔ name.length ≤ 127) := by
  refine ⟨staysIn_terminated_iff 127 r4 m, staysIn_iff 128 r4 m, fun name m' h0 h => ?_⟩
  refine ⟨(copyTerminated_delivered h0 h).trans ?_, (copyTerminated_delivered h0 h).trans ?_,
    (copyString_delivered h0 h).trans ?_⟩ <;> omega

end Names

def plainWith (mainMemory : Memory) : Plain where
  mmu := .pageTable [⟨0, 0, true, false, false, false⟩, ⟨1, 1, true, false, false, false⟩]
  mainMemory := mainMemory

def letters (n : ℕ) : Memory := fun a => if a < n then 0x61 else 0

def valueOf {μ α : Type} : EStateM.Result Trap μ α → Option α
  | .ok a _ => some a
  | .error _ _ => none

theorem valueOf_eq_some {μ α : Type} {r : EStateM.Result Trap μ α} {a : α}
    (h : valueOf r = some a) : ∃ m', r = .ok a m' := by
  cases r with
  | ok b m' => exact ⟨m', by rw [Option.some.inj h]⟩
  | error t m' => cases h

theorem names_stay_short :
    0 ∉ [(0x61 : Byte), 0x61, 0x61] ∧ OpenStays plainUser 0 (plainWith (letters 3)) ∧
      CreateStays plainUser 0 (plainWith (letters 3)) ∧
      ∃ m', openName plainUser 0 (plainWith (letters 3)) = .ok [0x61, 0x61, 0x61, 0] m' := by
  obtain ⟨hopen, hcreate, hname⟩ := names_stay_iff plainUser 0 (plainWith (letters 3))
  have hread : valueOf (characters plainUser 129 0 1 (plainWith (letters 3))) =
      some (List.replicate 3 0x61 ++ List.replicate 126 0) := by decide +kernel
  have hread' : valueOf (characters plainUser 128 0 1 (plainWith (letters 3))) =
      some (List.replicate 3 0x61 ++ List.replicate 125 0) := by decide +kernel
  have hends : EndsWithin plainUser 128 0 (plainWith (letters 3)) := by
    intro cs m' hcs
    rw [hcs] at hread
    rw [Option.some.inj hread]
    decide
  refine ⟨by decide, hopen.mpr ⟨hends, fun cs m' hcs => ?_⟩, hcreate.mpr hends, ?_⟩
  · rw [hcs] at hread'
    have hcs' : cs = List.replicate 3 0x61 ++ List.replicate 124 0 :=
      (List.append_inj_left' (Option.some.inj hread') rfl)
    rw [hcs']
    decide
  · obtain ⟨m', hm'⟩ := valueOf_eq_some
      (by decide +kernel : valueOf (characters plainUser 4 0 1 (plainWith (letters 3))) =
        some (extended [0x61, 0x61, 0x61]))
    exact ⟨m', (hname [0x61, 0x61, 0x61] m' (by decide) hm').2.1.mpr (by decide)⟩

theorem not_staysIn {room after n : ℕ} {r4 : Word} {s : Plain} {l : ℕ × Bool}
    (h : (valueOf (rounds plainUser n r4 1 s)).map (fun r => (r.1.length, r.2)) = some l)
    (hl : room < l.1 + if l.2 then after else 0) : ¬StaysIn plainUser room after r4 s := by
  intro hin
  obtain ⟨r, hr, rfl⟩ := Option.map_eq_some_iff.mp h
  obtain ⟨m', hm'⟩ := valueOf_eq_some hr
  have hle := hin _ _ _ _ hm'
  dsimp only at hl
  omega

/-- A name of 127 letters leaves room for its zero but not for the second one; without a zero
the loops of all three calls leave the buffer. -/
theorem names_overrun :
    ¬OpenStays plainUser 0 (plainWith (letters 127)) ∧
      ¬OpenStays plainUser 0 (plainWith (letters 256)) ∧
      ¬CreateStays plainUser 0 (plainWith (letters 256)) :=
  ⟨not_staysIn (n := 128) (l := (128, true)) (by decide +kernel) (by decide),
    not_staysIn (n := 129) (l := (129, false)) (by decide +kernel) (by decide),
    not_staysIn (n := 129) (l := (129, false)) (by decide +kernel) (by decide)⟩

end Nachos
