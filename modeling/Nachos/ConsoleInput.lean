import Nachos.Reachability
import Nachos.Translate

/-! The input half of the console (`console.cc`). A `char` is signed, so the byte 255 is `EOF`, and
`incoming` cannot tell it from an empty buffer. Polls come at any time; the kernel calls `GetChar`
once for each notification. What was read and what was returned is not in the source. -/
namespace Nachos.ConsoleInput

def eof : ℤ := -1

structure Console where
  readFile : List Byte
  incoming : Byte
  numConsoleCharsRead : ℕ
  deriving DecidableEq, Repr

def Console.new (readFile : List Byte) : Console := ⟨readFile, BitVec.ofInt 8 eof, 0⟩

/-- A poll, with the answer of `PollFile`. The byte is the one the read handler is called for; at
the end of the file the assertion in `Read` fails. -/
def Console.checkCharAvail (c : Console) (pollFile : Bool) : Option (Console × Option Byte) :=
  if c.incoming.toInt ≠ eof ∨ pollFile = false then some (c, none)
  else
    match c.readFile with
    | [] => none
    | b :: rest => some (⟨rest, b, c.numConsoleCharsRead + 1⟩, some b)

def Console.getChar (c : Console) : Byte × Console :=
  (c.incoming, { c with incoming := BitVec.ofInt 8 eof })

/-- `readAvail` counts the notifications that no `GetChar` has answered. -/
structure State where
  console : Console
  readAvail : ℕ
  read : List Byte
  returned : List Byte
  deriving DecidableEq, Repr

inductive Event where
  | poll (pollFile : Bool)
  | getChar
  deriving DecidableEq, Repr

def State.start (readFile : List Byte) : State := ⟨.new readFile, 0, [], []⟩

def step (s : State) : Event → Option State
  | .poll pollFile =>
    match s.console.checkCharAvail pollFile with
    | none => none
    | some (c, none) => some { s with console := c }
    | some (c, some b) =>
      some { s with console := c, readAvail := s.readAvail + 1, read := s.read ++ [b] }
  | .getChar =>
    if s.readAvail = 0 then none
    else some { s with
      console := s.console.getChar.2
      readAvail := s.readAvail - 1
      returned := s.returned ++ [s.console.getChar.1] }

/-- The poll reads another byte while an unanswered 255 is buffered. -/
def Overwrites (s : State) (e : Event) : Prop :=
  e = .poll true ∧ 0 < s.readAvail ∧ s.console.incoming = 255 ∧
    ∃ b ∈ s.console.readFile.head?, b ≠ 255

def NeverOverwrites (s : State) : List Event → Prop
  | [] => True
  | e :: events => ¬ Overwrites s e ∧ ∀ s', step s e = some s' → NeverOverwrites s' events

theorem toInt_eq_eof (b : Byte) : b.toInt = eof ↔ b = 255 := by
  rw [← BitVec.toInt_inj]
  rfl

variable {s s' : State} {e : Event} {events : List Event} {readFile : List Byte}

theorem step_cases (h : step s e = some s') :
    (s' = s ∧ ¬ Overwrites s e) ∨
    (∃ b rest, e = .poll true ∧ s.console.incoming = 255 ∧ s.console.readFile = b :: rest ∧
      s' = ⟨⟨rest, b, s.console.numConsoleCharsRead + 1⟩, s.readAvail + 1, s.read ++ [b],
        s.returned⟩) ∨
    (e = .getChar ∧ 0 < s.readAvail ∧
      s' = ⟨{ s.console with incoming := 255 }, s.readAvail - 1, s.read,
        s.returned ++ [s.console.incoming]⟩) := by
  cases e with
  | poll pollFile =>
    simp only [step, Console.checkCharAvail, ne_eq, toInt_eq_eof] at h
    by_cases hidle : ¬ s.console.incoming = 255 ∨ pollFile = false
    · rw [if_pos hidle] at h
      refine .inl ⟨(Option.some.inj h).symm, ?_⟩
      rintro ⟨hpoll, -, hincoming, -⟩
      cases hpoll
      simp [hincoming] at hidle
    · rw [if_neg hidle] at h
      rw [not_or, not_not, Bool.not_eq_false] at hidle
      obtain ⟨hincoming, rfl⟩ := hidle
      cases hfile : s.console.readFile with
      | nil =>
        rw [hfile] at h
        cases h
      | cons b rest =>
        rw [hfile] at h
        exact .inr (.inl ⟨b, rest, rfl, hincoming, rfl, (Option.some.inj h).symm⟩)
  | getChar =>
    simp only [step] at h
    split_ifs at h with hzero
    exact .inr (.inr ⟨rfl, Nat.pos_of_ne_zero hzero, (Option.some.inj h).symm⟩)

structure Accounts (readFile : List Byte) (s : State) : Prop where
  file : s.read ++ s.console.readFile = readFile
  stats : s.console.numConsoleCharsRead = s.read.length
  answered : s.returned.length + s.readAvail = s.read.length

theorem step_accounts (h : step s e = some s') (ha : Accounts readFile s) :
    Accounts readFile s' := by
  obtain ⟨hfile, hstats, hanswered⟩ := ha
  obtain ⟨rfl, -⟩ | ⟨b, rest, -, -, hcons, rfl⟩ | ⟨-, hpos, rfl⟩ := step_cases h
  · exact ⟨hfile, hstats, hanswered⟩
  · refine ⟨?_, ?_, ?_⟩
    · rw [← hfile, hcons, List.append_assoc]
      rfl
    · simp [hstats]
    · simp only [List.length_append, List.length_singleton]
      omega
  · refine ⟨hfile, hstats, ?_⟩
    simp only [List.length_append, List.length_singleton]
    omega

/-- The bytes that are still to be returned are all in the buffer: one byte, or only bytes 255. -/
structure Kept (s : State) : Prop where
  read : s.read = s.returned ++ List.replicate s.readAvail s.console.incoming
  one : s.console.incoming ≠ 255 → s.readAvail = 1

/-- A byte was returned out of its turn, or the next one will be. -/
def Broken (s : State) : Prop :=
  ¬ s.returned <+: s.read ∨
    s.console.incoming ≠ 255 ∧ ∃ rest, s.read = s.returned ++ 255 :: rest

theorem step_kept (h : step s e = some s') (hk : Kept s) (hno : ¬ Overwrites s e) : Kept s' := by
  obtain ⟨hread, hone⟩ := hk
  obtain ⟨rfl, -⟩ | ⟨b, rest, rfl, hempty, hcons, rfl⟩ | ⟨-, hpos, rfl⟩ := step_cases h
  · exact ⟨hread, hone⟩
  · by_cases hzero : s.readAvail = 0
    · refine ⟨?_, fun _ => by simp [hzero]⟩
      simp [hread, hzero]
    · have hb : b = 255 := by
        by_contra hb
        exact hno ⟨rfl, Nat.pos_of_ne_zero hzero, hempty, b, by rw [hcons]; rfl, hb⟩
      refine ⟨?_, fun hne => absurd hb hne⟩
      rw [hread, hempty, hb, List.append_assoc, ← List.replicate_succ']
  · refine ⟨?_, fun hne => absurd rfl hne⟩
    obtain ⟨k, hk⟩ := Nat.exists_eq_succ_of_ne_zero hpos.ne'
    by_cases hempty : s.console.incoming = 255
    · rw [hread, hempty, hk, List.replicate_succ, List.append_assoc]
      rfl
    · rw [hread, hone hempty]
      simp

theorem overwrites_broken (h : step s e = some s') (hk : Kept s) (ho : Overwrites s e) :
    Broken s' := by
  obtain ⟨rfl, hpos, hempty, b, hhead, hb⟩ := ho
  obtain ⟨-, hno⟩ | ⟨c, rest, -, -, hcons, rfl⟩ | ⟨he, -⟩ := step_cases h
  · exact absurd ⟨rfl, hpos, hempty, b, hhead, hb⟩ hno
  · rw [hcons] at hhead
    obtain rfl : c = b := Option.some.inj hhead
    obtain ⟨k, hsucc⟩ := Nat.exists_eq_succ_of_ne_zero hpos.ne'
    refine .inr ⟨hb, List.replicate k 255 ++ [c], ?_⟩
    rw [hk.read, hempty, hsucc, List.replicate_succ, List.append_assoc]
    rfl
  · cases he

theorem step_broken (h : step s e = some s') (ha : Accounts readFile s) (hb : Broken s) :
    Broken s' := by
  have hle : s.returned.length ≤ s.read.length := by
    have := ha.answered
    omega
  obtain ⟨rfl, -⟩ | ⟨b, rest, rfl, hempty, hcons, rfl⟩ | ⟨-, hpos, rfl⟩ := step_cases h
  · exact hb
  · obtain hnot | ⟨hfull, -⟩ := hb
    · refine .inl fun hprefix => hnot ?_
      exact List.prefix_of_prefix_length_le hprefix (List.prefix_append _ _) hle
    · exact absurd hempty hfull
  · refine .inl fun hprefix => ?_
    obtain hnot | ⟨hfull, rest, hread⟩ := hb
    · exact hnot ((List.prefix_append _ _).trans hprefix)
    · rw [hread, List.prefix_append_right_inj] at hprefix
      exact hfull (List.cons_prefix_cons.mp hprefix).1

theorem run_broken (h : events.foldlM step s = some s') (ha : Accounts readFile s)
    (hb : Broken s) : Broken s' := by
  have hrun : Accounts readFile s' ∧ Broken s' := by
    refine foldlM_invariant (P := fun s => Accounts readFile s ∧ Broken s) ?_ ⟨ha, hb⟩ h
    intro s s' e _ hs hstep
    exact ⟨step_accounts hstep hs.1, step_broken hstep hs.1 hs.2⟩
  exact hrun.2

theorem run_kept (h : events.foldlM step s = some s') (ha : Accounts readFile s) (hk : Kept s) :
    (NeverOverwrites s events → Kept s') ∧ (¬ NeverOverwrites s events → Broken s') := by
  induction events generalizing s with
  | nil =>
    obtain rfl := Option.some.inj h
    exact ⟨fun _ => hk, fun hno => absurd trivial hno⟩
  | cons e events ih =>
    obtain ⟨u, hu, h⟩ := Option.bind_eq_some_iff.mp h
    have hau := step_accounts hu ha
    by_cases ho : Overwrites s e
    · exact ⟨fun hnever => absurd ho hnever.1,
        fun _ => run_broken h hau (overwrites_broken hu hk ho)⟩
    · obtain ⟨hkept, hbroken⟩ := ih h hau (step_kept hu hk ho)
      have hiff : NeverOverwrites s (e :: events) ↔ NeverOverwrites u events := by
        refine ⟨fun hnever => hnever.2 u hu, fun hnever => ⟨ho, fun v hv => ?_⟩⟩
        rw [hu] at hv
        obtain rfl := Option.some.inj hv
        exact hnever
      rw [hiff]
      exact ⟨hkept, hbroken⟩

theorem start_accounts : Accounts readFile (.start readFile) := ⟨rfl, rfl, rfl⟩

theorem start_kept : Kept (.start readFile) := ⟨rfl, fun hne => absurd rfl hne⟩

theorem run_accounts (h : events.foldlM step (.start readFile) = some s) :
    Accounts readFile s :=
  foldlM_invariant (fun _ _ _ _ ha hstep => step_accounts hstep ha) start_accounts h

theorem not_overwrites (hfile : ∀ b, [255, b] <:+: readFile → b = 255)
    (ha : Accounts readFile s) (hk : Kept s) : ¬ Overwrites s e := by
  rintro ⟨-, hpos, hempty, b, hhead, hb⟩
  obtain ⟨rest, hcons⟩ : ∃ rest, s.console.readFile = b :: rest := by
    cases hc : s.console.readFile with
    | nil =>
      rw [hc] at hhead
      cases hhead
    | cons c rest =>
      rw [hc] at hhead
      exact ⟨rest, congrArg (· :: rest) (Option.some.inj hhead)⟩
  obtain ⟨k, hsucc⟩ := Nat.exists_eq_succ_of_ne_zero hpos.ne'
  refine hb (hfile b ⟨s.returned ++ List.replicate k 255, rest, ?_⟩)
  rw [← ha.file, hk.read, hempty, hsucc, hcons, List.replicate_succ']
  simp

theorem neverOverwrites (hfile : ∀ b, [255, b] <:+: readFile → b = 255) (events : List Event)
    (ha : Accounts readFile s) (hk : Kept s) : NeverOverwrites s events := by
  induction events generalizing s with
  | nil => trivial
  | cons e events ih =>
    have hno : ¬ Overwrites s e := not_overwrites hfile ha hk
    exact ⟨hno, fun u hu => ih (step_accounts hu ha) (step_kept hu hk hno)⟩

theorem step_poll (b : Byte) (l r t : List Byte) (n k : ℕ) :
    step ⟨⟨b :: l, 255, n⟩, k, r, t⟩ (.poll true) = some ⟨⟨l, b, n + 1⟩, k + 1, r ++ [b], t⟩ := by
  simp [step, Console.checkCharAvail, eof]

theorem step_getChar (b : Byte) (l r t : List Byte) (n k : ℕ) :
    step ⟨⟨l, b, n⟩, k + 1, r, t⟩ .getChar = some ⟨⟨l, 255, n⟩, k, r, t ++ [b]⟩ := by
  simp [step, Console.getChar, eof]

def alternating (l : List Byte) : List Event := l.flatMap fun _ => [.poll true, .getChar]

def polledTwice : List Event := [.poll true, .poll true, .getChar, .getChar]

theorem run_alternating (l rest r : List Byte) (n : ℕ) :
    (alternating l).foldlM step ⟨⟨l ++ rest, 255, n⟩, 0, r, r⟩ =
      some ⟨⟨rest, 255, n + l.length⟩, 0, r ++ l, r ++ l⟩ := by
  induction l generalizing r n with
  | nil => simp [alternating]
  | cons b l ih =>
    have hcons : alternating (b :: l) = .poll true :: .getChar :: alternating l := rfl
    rw [hcons, List.cons_append, List.foldlM_cons, step_poll]
    simp only [Option.bind_eq_bind, Option.bind_some, List.foldlM_cons, step_getChar, ih,
      List.append_assoc, List.singleton_append, List.length_cons]
    rw [Nat.add_assoc n 1, Nat.add_comm 1]

theorem run_polledTwice (l rest : List Byte) (b : Byte) :
    (alternating l ++ polledTwice).foldlM step (.start (l ++ 255 :: b :: rest)) =
      some ⟨⟨rest, 255, l.length + 2⟩, 0, l ++ [255, b], l ++ [b, 255]⟩ := by
  have hl := run_alternating l (255 :: b :: rest) [] 0
  have hstart : State.start (l ++ 255 :: b :: rest) =
      ⟨⟨l ++ 255 :: b :: rest, 255, 0⟩, 0, [], []⟩ := rfl
  rw [List.foldlM_append, hstart, hl]
  simp only [polledTwice, List.foldlM_cons, List.foldlM_nil, step_poll, step_getChar,
    Option.bind_eq_bind, Option.bind_some, List.nil_append, List.append_assoc,
    List.singleton_append, Nat.zero_add]
  rfl

theorem run_start (h : events.foldlM step (.start readFile) = some s) :
    s.read ++ s.console.readFile = readFile ∧
      s.returned.length + s.readAvail = s.read.length ∧
      (NeverOverwrites (.start readFile) events → s.returned <+: s.read) ∧
      (s.readAvail = 0 →
        (s.returned = s.read ↔ NeverOverwrites (.start readFile) events)) := by
  have ha := run_accounts h
  obtain ⟨hkept, hbroken⟩ := run_kept h start_accounts start_kept
  refine ⟨ha.file, ha.answered, fun hnever => ?_, fun hzero => ⟨fun heq => ?_, fun hnever => ?_⟩⟩
  · rw [(hkept hnever).read]
    exact List.prefix_append _ _
  · by_contra hno
    obtain hnot | ⟨-, rest, hread⟩ := hbroken hno
    · exact hnot (heq ▸ List.prefix_rfl)
    · rw [heq] at hread
      simp at hread
  · have hread := (hkept hnever).read
    rw [hzero, List.replicate_zero, List.append_nil] at hread
    exact hread.symm

/-- A run in which every notification is answered returns what it read, in order, exactly when
it never overwrites; one that never overwrites is right in every state. A file is safe under
every order of polls and calls exactly when no byte 255 in it is followed by another byte. -/
theorem returned_eq_read_iff (readFile : List Byte) :
    (∀ (events : List Event) s, events.foldlM step (.start readFile) = some s →
      s.read ++ s.console.readFile = readFile ∧
      s.returned.length + s.readAvail = s.read.length ∧
      (NeverOverwrites (.start readFile) events → s.returned <+: s.read) ∧
      (s.readAvail = 0 →
        (s.returned = s.read ↔ NeverOverwrites (.start readFile) events))) ∧
    ((∀ (events : List Event) s, events.foldlM step (.start readFile) = some s → s.readAvail = 0 →
      s.returned = s.read) ↔ ∀ b, [255, b] <:+: readFile → b = 255) := by
  refine ⟨fun events s h => run_start h, fun hall b => ?_, fun hfile events s h hzero => ?_⟩
  · rintro ⟨l, rest, rfl⟩
    have hrun := run_polledTwice l rest b
    rw [show l ++ 255 :: b :: rest = l ++ [255, b] ++ rest by simp] at hrun
    have hswapped : l ++ [b, 255] = l ++ [255, b] := hall _ _ hrun rfl
    exact (List.cons.inj (List.append_cancel_left hswapped)).1
  · exact ((run_start h).2.2.2 hzero).mpr (neverOverwrites hfile events start_accounts start_kept)

/-- The byte 255 at the end of a file, polled again before it is fetched. -/
theorem returned_eq_read_iff_trailing : ∃ s,
    (alternating [104, 105] ++ polledTwice).foldlM step (.start [104, 105, 255, 255]) = some s ∧
      s.returned = s.read := by
  have hrun : (alternating [104, 105] ++ polledTwice).foldlM step (.start [104, 105, 255, 255]) =
      some ⟨⟨[], 255, 4⟩, 0, [104, 105, 255, 255], [104, 105, 255, 255]⟩ := by decide
  refine ⟨_, hrun, (returned_eq_read_iff [104, 105, 255, 255]).2.mpr (fun b hb => ?_) _ _ hrun rfl⟩
  simpa [List.infix_cons_iff] using hb

/-- The byte 255 and a letter, polled twice before the first of them is fetched. -/
theorem not_returned_eq_read : ¬ ∀ readFile (events : List Event) s,
    events.foldlM step (.start readFile) = some s → s.readAvail = 0 → s.returned = s.read := by
  intro hall
  have hrun : polledTwice.foldlM step (.start [255, 97]) =
      some ⟨⟨[], 255, 2⟩, 0, [255, 97], [97, 255]⟩ := by decide
  have := hall [255, 97] polledTwice _ hrun rfl
  cases this

end Nachos.ConsoleInput
