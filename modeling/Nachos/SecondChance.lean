import Nachos.FaultProgress

/-! The victim of the second-chance search (`AddrSpace::buscarVictima` of `addrspace.cc`). Its two
loops together go round frames 1 to 31; `scanFrames` is the pair of them with a bound on the
entries of the core map that are examined. Entry `k` is the one that is examined after `k`
others. -/
namespace Nachos

variable {s : Vm}

/-- `i++` of the `for` loop, or `i = 1` of the next one. -/
def nextFrame (f : Fin numPhysPages) : Fin numPhysPages :=
  if h : f.val + 1 < numPhysPages then ⟨f.val + 1, h⟩ else 1

/-- The loops of `buscarVictima` from frame `f` on, for at most `fuel` entries. -/
def scanFrames : ℕ → Fin numPhysPages → Kernel ℤ
  | 0, _ => throw .assertion
  | fuel + 1, f => do
    let vpn ← iptVpn f
    let e ← page vpn
    if e.use then
      updatePage vpn fun e => { e with use := false }
      scanFrames fuel (nextFrame f)
    else return e.physicalPage

def frameAt (k : ℕ) : Fin numPhysPages := ⟨k % 31 + 1, by simp only [numPhysPages]; omega⟩

def Vm.examined (s : Vm) (k : ℕ) : Option TranslationEntry :=
  s.space.pageTable[(s.space.ipt (frameAt k)).toNat]?

def Vm.cleared (s : Vm) (k : ℕ) : Vm :=
  { s with space := { s.space with
    pageTable := s.space.pageTable.mapIdx fun v e =>
      if ∃ j < k, (s.space.ipt (frameAt j)).toNat = v then { e with use := false } else e } }

theorem nextFrame_frameAt (k : ℕ) : nextFrame (frameAt k) = frameAt (k + 1) := by
  unfold nextFrame frameAt
  simp only [numPhysPages]
  split_ifs with h
  · exact Fin.ext (by simp only; omega)
  · exact Fin.ext (by simp only [Fin.val_one]; omega)

theorem frameAt_mem (k : ℕ) : frameAt k ∈ (List.finRange numPhysPages).tail := by
  have hmem : ∀ i : Fin 31, frameAt i ∈ (List.finRange numPhysPages).tail := by decide
  have hk := hmem ⟨k % 31, Nat.mod_lt _ (by decide)⟩
  have hmod : frameAt (k % 31) = frameAt k := Fin.ext (by simp [frameAt])
  rwa [hmod] at hk

theorem sweepFrames_cons (f : Fin numPhysPages) (fs : List (Fin numPhysPages)) (s : Vm) :
    sweepFrames (f :: fs) s = (match (do page (← iptVpn f)) s with
      | .error t s' => .error t s'
      | .ok e s₁ => if e.use then
          (match updatePage (s.space.ipt f) (fun e => { e with use := false }) s₁ with
          | .error t s' => .error t s'
          | .ok _ s₂ => sweepFrames fs s₂)
        else .ok (some e.physicalPage) s₁) := by
  by_cases hent : s.space.iptEntries ≤ f
  · simp only [sweepFrames, EStateM.apply_bind, iptVpn_error hent]
  simp only [sweepFrames, EStateM.apply_bind, iptVpn_ok (not_le.mp hent), EStateM.apply_ite,
    EStateM.apply_pure]
  cases page (s.space.ipt f) s with
  | error t s' => rfl
  | ok e s₁ =>
    by_cases hu : e.use = true
    · simp only [hu, if_true]
      cases updatePage (s.space.ipt f) (fun e => { e with use := false }) s₁ <;> rfl
    · simp only [hu]
      rfl

theorem sweepFrames_append (fs gs : List (Fin numPhysPages)) (s : Vm) :
    sweepFrames (fs ++ gs) s = (match sweepFrames fs s with
      | .ok none s' => sweepFrames gs s'
      | r => r) := by
  induction fs generalizing s with
  | nil => rfl
  | cons f fs ih =>
    rw [List.cons_append, sweepFrames_cons, sweepFrames_cons]
    cases (do page (← iptVpn f) : Kernel TranslationEntry) s with
    | error t s' => rfl
    | ok e s₁ =>
      by_cases hu : e.use = true
      · simp only [hu, if_true]
        cases updatePage (s.space.ipt f) (fun e => { e with use := false }) s₁ with
        | error t s' => rfl
        | ok _ s₂ => exact ih s₂
      · simp only [hu]
        rfl

theorem scanFrames_eq (fuel k : ℕ) (s : Vm) :
    scanFrames fuel (frameAt k) s = (match sweepFrames ((List.range' k fuel).map frameAt) s with
      | .ok (some victima) s' => .ok victima s'
      | .ok none s' => .error .assertion s'
      | .error t s' => .error t s') := by
  induction fuel generalizing k s with
  | zero => rfl
  | succ fuel ih =>
    rw [List.range'_succ, List.map_cons]
    by_cases hent : s.space.iptEntries ≤ frameAt k
    · simp only [scanFrames, sweepFrames, EStateM.apply_bind, iptVpn_error hent]
    simp only [scanFrames, sweepFrames, nextFrame_frameAt, EStateM.apply_bind,
      iptVpn_ok (not_le.mp hent), EStateM.apply_ite, EStateM.apply_pure]
    cases page (s.space.ipt (frameAt k)) s with
    | error t s' => rfl
    | ok e s₁ =>
      by_cases hu : e.use = true
      · simp only [hu, if_true]
        cases updatePage (s.space.ipt (frameAt k)) (fun e => { e with use := false }) s₁ with
        | error t s' => rfl
        | ok _ s₂ => exact ih (k + 1) s₂
      · simp only [hu]
        rfl

/-- The two rounds are a search over 62 entries. -/
theorem buscarVictima_eq : buscarVictima = scanFrames 62 (frameAt 0) := by
  have hrounds : (List.range' 0 62).map frameAt =
      (List.finRange numPhysPages).tail ++ (List.finRange numPhysPages).tail := by decide
  funext s
  rw [scanFrames_eq, hrounds, sweepFrames_append]
  simp only [buscarVictima, EStateM.apply_bind]
  cases sweepFrames (List.finRange numPhysPages).tail s with
  | error t s' => rfl
  | ok r s₁ =>
    cases r with
    | some victima => rfl
    | none =>
      simp only [EStateM.apply_bind]
      cases sweepFrames (List.finRange numPhysPages).tail s₁ with
      | error t s' => rfl
      | ok r s₂ => cases r <;> rfl

theorem examined_cleared (s : Vm) (j k : ℕ) : (s.cleared k).examined j = (s.examined j).map fun e =>
    if ∃ i < k, (s.space.ipt (frameAt i)).toNat = (s.space.ipt (frameAt j)).toNat then
      { e with use := false } else e := by
  simp [Vm.examined, Vm.cleared, List.getElem?_mapIdx]

theorem cleared_zero (s : Vm) : s.cleared 0 = s := by
  have hsame : s.space.pageTable.mapIdx (fun _ e => e) = s.space.pageTable := by
    apply List.ext_getElem?
    simp
  simp [Vm.cleared, hsame]

theorem setPage_cleared {k n : ℕ} (hn : s.space.ipt (frameAt k) = n) :
    { s.cleared k with
      space := (s.cleared k).space.setPage n (fun e => { e with use := false }) } =
      s.cleared (k + 1) := by
  have htable : (s.cleared k).space.pageTable.modify n (fun e => { e with use := false }) =
      (s.cleared (k + 1)).space.pageTable := by
    rw [modify_eq_mapIdx]
    simp only [Vm.cleared, List.mapIdx_mapIdx]
    congr 1
    funext v e
    by_cases hv : n = v
    · have hnow : ∃ j < k + 1, (s.space.ipt (frameAt j)).toNat = v :=
        ⟨k, by omega, by simp [hn, hv]⟩
      simp only [Function.comp_apply, hv, if_true, if_pos hnow]
      split_ifs <;> rfl
    · have hiff : (∃ j < k + 1, (s.space.ipt (frameAt j)).toNat = v) ↔
          ∃ j < k, (s.space.ipt (frameAt j)).toNat = v := by
        constructor
        · rintro ⟨j, hj, hjv⟩
          refine ⟨j, ?_, hjv⟩
          by_contra hlt
          obtain rfl : j = k := by omega
          rw [hn] at hjv
          exact hv hjv
        · rintro ⟨j, hj, hjv⟩
          exact ⟨j, by omega, hjv⟩
      simp only [Function.comp_apply, hv, if_false, hiff]
  simp only [AddrSpace.setPage, Int.toNat_natCast, htable]
  rfl

section search
variable (h : s.coreInRange (List.finRange numPhysPages).tail)
include h

theorem exists_examined (k j : ℕ) : ∃ (n : ℕ) (e : TranslationEntry),
    s.space.ipt (frameAt j) = n ∧ (s.cleared k).space.pageTable[n]? = some e ∧
      (s.cleared k).examined j = some e := by
  obtain ⟨-, n, hn, hf⟩ := h (frameAt j) (frameAt_mem j)
  have hlen : n < (s.cleared k).space.pageTable.length := by
    simpa [Vm.cleared] using hn
  obtain ⟨e, he⟩ := exists_page hlen
  refine ⟨n, e, hf, he, ?_⟩
  have hipt : (s.cleared k).space.ipt (frameAt j) = n := hf
  rw [Vm.examined, hipt]
  exact he

theorem examine_ok {k j n : ℕ} {e : TranslationEntry} (hv : s.space.ipt (frameAt j) = n)
    (he : (s.cleared k).space.pageTable[n]? = some e) :
    (do page (← iptVpn (frameAt j)) : Kernel TranslationEntry) (s.cleared k) =
      .ok e (s.cleared k) := by
  have hipt : (s.cleared k).space.ipt (frameAt j) = n := hv
  have hent : (frameAt j).val < (s.cleared k).space.iptEntries := (h (frameAt j) (frameAt_mem j)).1
  rw [EStateM.apply_bind, iptVpn_ok hent, hipt]
  exact page_ok he

/-- Over entries with their use bits on a round only clears them. -/
theorem sweep_on {j n : ℕ} (hon : ∀ i, j ≤ i → i < j + n → ∀ e ∈ (s.cleared i).examined i, e.use) :
    sweepFrames ((List.range' j n).map frameAt) (s.cleared j) = .ok none (s.cleared (j + n)) := by
  induction n generalizing j with
  | zero => rfl
  | succ n ih =>
    obtain ⟨v, e, hv, he, hx⟩ := exists_examined h j j
    have hipt : (s.cleared j).space.ipt (frameAt j) = v := hv
    have huse : e.use = true := hon j le_rfl (by omega) e hx
    rw [List.range'_succ, List.map_cons, sweepFrames_cons, hipt, examine_ok h hv he]
    simp only [huse, if_true, updatePage_ok he, setPage_cleared hv]
    rw [ih fun i hj hi => hon i (by omega) (by omega)]
    congr 2
    omega

/-- At the first entry with its use bit off the round ends. -/
theorem sweep_off {j n : ℕ} {e : TranslationEntry}
    (hon : ∀ i, j ≤ i → i < j + n → ∀ e ∈ (s.cleared i).examined i, e.use)
    (he : (s.cleared (j + n)).examined (j + n) = some e) (huse : e.use = false)
    (fs : List (Fin numPhysPages)) :
    sweepFrames ((List.range' j n).map frameAt ++ frameAt (j + n) :: fs) (s.cleared j) =
      .ok (some e.physicalPage) (s.cleared (j + n)) := by
  obtain ⟨v, e', hv, hp, hx⟩ := exists_examined h (j + n) (j + n)
  obtain rfl : e' = e := Option.some.inj (hx.symm.trans he)
  have hipt : (s.cleared (j + n)).space.ipt (frameAt (j + n)) = v := hv
  rw [sweepFrames_append, sweep_on h hon]
  simp only [sweepFrames_cons, examine_ok h hv hp, huse]
  rfl

omit h in
theorem examined_again {e : TranslationEntry} (he : (s.cleared 31).examined 31 = some e) :
    e.use = false := by
  have hbefore : ∃ i < 31, (s.space.ipt (frameAt i)).toNat = (s.space.ipt (frameAt 31)).toNat :=
    ⟨0, by decide, rfl⟩
  simp only [examined_cleared, if_pos hbefore] at he
  obtain ⟨e', -, rfl⟩ := Option.map_eq_some_iff.mp he
  rfl

/-- The search ends at the first entry whose page has its use bit off when it is examined, the
32nd one at the latest, and has cleared the use bits of the pages before. -/
theorem buscarVictima_secondChance : ∃ k < 32, ∃ e,
    (s.cleared k).examined k = some e ∧ e.use = false ∧
    (∀ j < k, ∃ e', (s.cleared j).examined j = some e' ∧ e'.use = true) ∧
    (∀ fuel, scanFrames fuel 1 s = if k < fuel then .ok e.physicalPage (s.cleared k)
      else .error .assertion (s.cleared fuel)) ∧
    buscarVictima s = .ok e.physicalPage (s.cleared k) := by
  have hexists : ∃ k, ∀ e ∈ (s.cleared k).examined k, e.use = false :=
    ⟨31, fun e he => examined_again he⟩
  obtain ⟨k, hk, hfirst⟩ : ∃ k, (∀ e ∈ (s.cleared k).examined k, e.use = false) ∧
      ∀ j < k, ∃ e' ∈ (s.cleared j).examined j, e'.use = true := by
    classical
    refine ⟨Nat.find hexists, Nat.find_spec hexists, fun j hj => ?_⟩
    simpa using Nat.find_min hexists hj
  have hk32 : k < 32 := by
    by_contra hge
    obtain ⟨e', he', huse⟩ := hfirst 31 (by omega)
    rw [examined_again he'] at huse
    cases huse
  obtain ⟨n, e, -, -, he⟩ := exists_examined h k k
  have huse := hk e he
  have hon : ∀ j < k, ∀ e' ∈ (s.cleared j).examined j, e'.use := by
    intro j hj e' he'
    obtain ⟨e'', he'', huse''⟩ := hfirst j hj
    obtain rfl := Option.some.inj (he'.symm.trans he'')
    exact huse''
  have hscan : ∀ fuel, scanFrames fuel 1 s = if k < fuel then .ok e.physicalPage (s.cleared k)
      else .error .assertion (s.cleared fuel) := by
    intro fuel
    have hone : (1 : Fin numPhysPages) = frameAt 0 := rfl
    rw [hone, scanFrames_eq]
    split_ifs with hlt
    · obtain ⟨m, rfl⟩ : ∃ m, fuel = k + (m + 1) := ⟨fuel - k - 1, by omega⟩
      have hround := sweep_off h (j := 0) (n := k) (fun i _ hi => hon i (by omega))
        (by rwa [Nat.zero_add]) huse ((List.range' (k + 1) m).map frameAt)
      rw [Nat.zero_add, cleared_zero] at hround
      rw [← List.range'_append_1, List.map_append, Nat.zero_add, List.range'_succ, List.map_cons,
        hround]
    · have hround := sweep_on h (j := 0) (n := fuel) fun i _ hi => hon i (by omega)
      rw [Nat.zero_add, cleared_zero] at hround
      rw [hround]
  refine ⟨k, hk32, e, he, huse, hfirst, hscan, ?_⟩
  rw [buscarVictima_eq]
  exact (hscan 62).trans (if_pos (by omega))

end search

/-- Two pages, both in use, with the odd frames of the core map naming the first of them. -/
def sharedVm : Vm := { bootVm with space := { bootVm.space with
  iptEntries := numPhysPages
  pageTable := [⟨0, 3, true, false, true, false⟩, ⟨1, 4, true, false, true, false⟩]
  ipt := fun f => if f.val % 2 = 1 then 0 else 1 } }

theorem buscarVictima_secondChance_shared : ∃ k < 32, ∃ e,
    (sharedVm.cleared k).examined k = some e ∧ e.use = false ∧
    buscarVictima sharedVm = .ok e.physicalPage (sharedVm.cleared k) := by
  have hcore : sharedVm.coreInRange (List.finRange numPhysPages).tail := by
    intro f _
    by_cases hf : f.val % 2 = 1
    · exact ⟨f.isLt, 0, by decide, if_pos hf⟩
    · exact ⟨f.isLt, 1, by decide, if_neg hf⟩
  obtain ⟨k, hk, e, he, huse, -, -, hrun⟩ := buscarVictima_secondChance hcore
  exact ⟨k, hk, e, he, huse, hrun⟩

end Nachos
