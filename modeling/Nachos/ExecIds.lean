import Nachos.Reachability
import Mathlib.Tactic

/-! The ids that `Nachos_Exec` returns (`exception.cc`). The counter `archivoAE` is incremented
before `Thread::Fork` and read again behind it; threads switch only where `Fork` enables
interrupts again, so that a call has two parts. Threads have numbers here, beside their addresses,
which may be those of threads that are gone. `thread` and `returned` are not in the source. -/
namespace Nachos.ExecIds

structure ArchivosEjec where
  hilo : ℤ
  thread : ℕ
  deriving DecidableEq, Repr

structure State where
  address : ℕ → ℤ
  threads : ℕ
  ejecutables : List ArchivosEjec
  archivoAE : ℤ
  forked : ℕ → Option ℕ
  returned : List (ℕ × BitVec 32)

/-- The `Fork` system call makes threads as well. -/
inductive Event where
  | fork (t : ℕ) (a : ℤ)
  | exec (t : ℕ) (a : ℤ)
  | writeRegister (t : ℕ)
  deriving DecidableEq, Repr

namespace State

def running (s : State) (t : ℕ) : Prop := t < s.threads ∧ s.forked t = none

instance (s : State) (t : ℕ) : Decidable (s.running t) := inferInstanceAs (Decidable (_ ∧ _))

def newThread (s : State) (a : ℤ) : State :=
  { s with address := Function.update s.address s.threads a, threads := s.threads + 1 }

/-- `Nachos_Exec` up to the end of `Fork`. -/
def exec (s : State) (t : ℕ) (a : ℤ) : State :=
  { s.newThread a with
    archivoAE := s.archivoAE + 1
    ejecutables := s.ejecutables ++ [⟨a, s.threads⟩]
    forked := Function.update s.forked t (some s.threads) }

/-- `WriteRegister(2, archivoAE)`, which takes an `int`. -/
def writeRegister (s : State) (t child : ℕ) : State :=
  { s with
    forked := Function.update s.forked t none
    returned := (child, BitVec.ofInt 32 s.archivoAE) :: s.returned }

def step (s : State) : Event → Option State
  | .fork t a => if s.running t then some (s.newThread a) else none
  | .exec t a => if s.running t then some (s.exec t a) else none
  | .writeRegister t => (s.forked t).map (s.writeRegister t)

def new (a : ℤ) : State := ⟨fun _ => a, 1, [], -1, fun _ => none, []⟩

def Init (s : State) : Prop := ∃ a, s = new a

def Step (s s' : State) : Prop := ∃ ev, s.step ev = some s'

/-- An `Exec` starts when no other one is behind its `Fork`, and its id fits in a register. -/
def Meets (s : State) : Event → Prop
  | .exec _ _ => (∀ u, s.forked u = none) ∧ s.ejecutables.length < 2 ^ 31
  | _ => True

def AloneStep (s s' : State) : Prop := ∃ ev, s.Meets ev ∧ s.step ev = some s'

end State

open State

variable {s s' : State}

def Owns (s : State) (child : ℕ) (id : ℤ) : Prop :=
  0 ≤ id ∧ s.ejecutables[id.toNat]? = some ⟨s.address child, child⟩

structure Inv (s : State) : Prop where
  counter : s.archivoAE = s.ejecutables.length - 1
  last : ∀ t child, s.forked t = some child → Owns s child s.archivoAE ∧ s.archivoAE < 2 ^ 31 ∧
    child < s.threads ∧ child ∉ s.returned.map Prod.fst ∧ ∀ u, s.forked u ≠ none → u = t
  own : ∀ child r2, (child, r2) ∈ s.returned → Owns s child r2.toInt ∧ child < s.threads
  once : (s.returned.map Prod.fst).Nodup

theorem inv_new (a : ℤ) : Inv (State.new a) where
  counter := rfl
  last t child h := by cases h
  own child r2 h := by cases h
  once := List.nodup_nil

theorem Owns.newThread {child : ℕ} {id : ℤ} (h : Owns s child id) (hc : child < s.threads) (a : ℤ) :
    Owns (s.newThread a) child id := by
  refine ⟨h.1, ?_⟩
  rw [State.newThread]
  dsimp only
  rw [Function.update_of_ne (by omega)]
  exact h.2

theorem Inv.fork (h : Inv s) (a : ℤ) : Inv (s.newThread a) where
  counter := h.counter
  last t child hf := by
    obtain ⟨hown, hlt, hc, hnot, hall⟩ := h.last t child hf
    exact ⟨hown.newThread hc a, hlt, Nat.lt_succ_of_lt hc, hnot, hall⟩
  own child r2 hr := by
    obtain ⟨hown, hc⟩ := h.own child r2 hr
    exact ⟨hown.newThread hc a, Nat.lt_succ_of_lt hc⟩
  once := h.once

theorem Inv.exec {t : ℕ} (h : Inv s) (hnone : ∀ u, s.forked u = none)
    (hlen : s.ejecutables.length < 2 ^ 31) (a : ℤ) : Inv (s.exec t a) where
  counter := by
    have := h.counter
    simp only [State.exec, List.length_append, List.length_singleton]
    push_cast
    omega
  last u child hf := by
    have hcounter := h.counter
    simp only [State.exec] at hf ⊢
    have hu : u = t := by
      by_contra hu
      rw [Function.update_of_ne hu, hnone u] at hf
      cases hf
    subst hu
    rw [Function.update_self] at hf
    obtain rfl := Option.some.inj hf
    have hid : (s.archivoAE + 1).toNat = s.ejecutables.length := by omega
    refine ⟨⟨by omega, ?_⟩, by omega, Nat.lt_succ_self _, ?_, fun v hv => ?_⟩
    · simp [hid, State.newThread]
    · intro hmem
      obtain ⟨⟨c, r2⟩, hr, hc⟩ := List.mem_map.mp hmem
      have := (h.own c r2 hr).2
      dsimp only at hc
      omega
    · by_contra hvu
      rw [Function.update_of_ne hvu] at hv
      exact hv (hnone v)
  own child r2 hr := by
    obtain ⟨hown, hc⟩ := h.own child r2 hr
    obtain ⟨h0, hget⟩ := hown.newThread hc a
    refine ⟨⟨h0, ?_⟩, Nat.lt_succ_of_lt hc⟩
    simp only [State.exec]
    rw [List.getElem?_append_left]
    · exact hget
    · exact (List.getElem?_eq_some_iff.mp hget).1
  once := h.once

theorem Inv.writeRegister {t child : ℕ} (h : Inv s) (hf : s.forked t = some child) :
    Inv (s.writeRegister t child) := by
  obtain ⟨hown, hlt, hc, hnot, hall⟩ := h.last t child hf
  have hid : (BitVec.ofInt 32 s.archivoAE).toInt = s.archivoAE :=
    BitVec.toInt_ofInt_eq_self (by norm_num) (by have := hown.1; omega) (by omega)
  constructor
  case counter => exact h.counter
  case last =>
    intro u c hu
    simp only [State.writeRegister] at hu
    by_cases hut : u = t
    · rw [hut, Function.update_self] at hu
      cases hu
    · rw [Function.update_of_ne hut] at hu
      exact absurd (hall u (by simp [hu])) hut
  case own =>
    intro c r2 hr
    simp only [State.writeRegister, List.mem_cons, Prod.mk.injEq] at hr
    obtain ⟨rfl, rfl⟩ | hr := hr
    · rw [hid]
      exact ⟨hown, hc⟩
    · exact h.own c r2 hr
  case once =>
    simp only [State.writeRegister, List.map_cons, List.nodup_cons]
    exact ⟨hnot, h.once⟩

theorem Inv.step {ev : Event} (h : Inv s) (hm : s.Meets ev) (hs : s.step ev = some s') :
    Inv s' := by
  cases ev with
  | fork t a =>
    rw [State.step] at hs
    split_ifs at hs
    exact Option.some.inj hs ▸ h.fork a
  | exec t a =>
    rw [State.step] at hs
    split_ifs at hs
    exact Option.some.inj hs ▸ h.exec hm.1 hm.2 a
  | writeRegister t =>
    obtain ⟨child, hf, rfl⟩ := Option.map_eq_some_iff.mp hs
    exact h.writeRegister hf

theorem reachable_inv (h : Reachable Init AloneStep s) : Inv s := by
  refine h.invariant ?_ ?_
  · rintro s ⟨a, rfl⟩
    exact inv_new a
  · rintro s s' hi ⟨ev, hm, hs⟩
    exact hi.step hm hs

/-- In every run whose `Exec` calls start while no other one is behind its `Fork`, each id that
was returned is the index of the entry of the thread that its call made, and no id is returned
twice. -/
theorem returned_own_index (h : Reachable Init AloneStep s) :
    (∀ r ∈ s.returned, 0 ≤ r.2.toInt ∧
        s.ejecutables[r.2.toInt.toNat]? = some ⟨s.address r.1, r.1⟩) ∧
      s.returned.Pairwise fun r r' => r.2 ≠ r'.2 := by
  have hi := reachable_inv h
  refine ⟨fun r hr => (hi.own r.1 r.2 hr).1, ?_⟩
  refine (List.pairwise_map.mp hi.once).imp_of_mem fun {r r'} hr hr' hne heq => hne ?_
  have hown := (hi.own r.1 r.2 hr).1.2
  rw [heq, (hi.own r'.1 r'.2 hr').1.2] at hown
  exact (congrArg ArchivosEjec.thread (Option.some.inj hown)).symm

/-- Two threads call `Exec` one after the other. -/
theorem inTurn_own_index : ∃ s, Reachable Init AloneStep s ∧ s.returned = [(3, 1), (2, 0)] ∧
    (∀ r ∈ s.returned, 0 ≤ r.2.toInt ∧
      s.ejecutables[r.2.toInt.toNat]? = some ⟨s.address r.1, r.1⟩) ∧
    s.returned.Pairwise fun r r' => r.2 ≠ r'.2 := by
  let s₁ := (State.new 0).newThread 8
  let s₂ := (s₁.exec 0 16).writeRegister 0 2
  have h₁ : Reachable Init AloneStep s₁ := .step (.init ⟨0, rfl⟩) ⟨.fork 0 8, trivial, rfl⟩
  have h₂ : Reachable Init AloneStep s₂ := by
    refine .step (.step h₁ ⟨.exec 0 16, ⟨fun _ => rfl, by decide⟩, rfl⟩) ?_
    exact ⟨.writeRegister 0, trivial, rfl⟩
  have h₃ : Reachable Init AloneStep ((s₂.exec 1 24).writeRegister 1 3) := by
    refine .step (.step h₂ ⟨.exec 1 24, ⟨fun u => ?_, by decide⟩, rfl⟩) ?_
    · simp [s₂, s₁, State.exec, State.writeRegister, State.newThread, State.new]
    · exact ⟨.writeRegister 1, trivial, rfl⟩
  exact ⟨_, h₃, by decide, returned_own_index h₃⟩

/-- A second `Exec` runs while the first one is switched away in `Fork`: both return 1. -/
theorem overtaken_same_id : ∃ s, Reachable Init Step s ∧ s.returned = [(2, 1), (3, 1)] ∧
    s.ejecutables = [⟨16, 2⟩, ⟨24, 3⟩] := by
  have hrun : ([.fork 0 8, .exec 0 16, .exec 1 24, .writeRegister 1, .writeRegister 0].foldlM
      State.step (State.new 0)).any (fun s : State => decide (s.returned = [(2, 1), (3, 1)]) &&
        decide (s.ejecutables = [⟨16, 2⟩, ⟨24, 3⟩])) = true := by
    decide
  obtain ⟨s, hs, hh⟩ := (Option.any_eq_true _ _).mp hrun
  simp only [Bool.and_eq_true, decide_eq_true_eq] at hh
  exact ⟨s, Reachable.of_foldlM (fun _ ev _ h => ⟨ev, h⟩) (.init ⟨0, rfl⟩) hs, hh.1, hh.2⟩

end Nachos.ExecIds
