import Nachos.ForkThreads
import Nachos.PageSharing

/-! What forked threads see of each other's stores. As long as the entries that were copied at the
fork stay the same in every table and the TLB has no entry of another stack, the pages below the
stack are shared and the stacks are not. -/
namespace Nachos.Forks

def frameOf (s : System) : PageSharing.PageMap ℕ ℕ ℕ := fun j v =>
  (s.entry j v).bind TranslationEntry.frame

def bytes (s : System) (f : ℕ) (o : Fin pageSize) : Byte := s.core.mainMemory (f * pageSize + o)

def sees (s : System) (j a : ℕ) : Option Byte :=
  PageSharing.seen (frameOf s) (bytes s) j (a / pageSize) ⟨a % pageSize, Nat.mod_lt _ (by decide)⟩

def viewAt (view : View) (j p : ℕ) (o : Fin pageSize) : Option Byte := view j (p * pageSize + o)

/-- What the page tables of the threads and the frames keep. -/
structure Inv (n : ℕ) (x : System × View) : Prop where
  stack : stackPages ≤ n
  pages : ∀ (j : ℕ) a, x.1.spaces[j]? = some a → a.pageTable.length = n
  placed : ∀ j v e, x.1.entry j v = some e → e.physicalPage ≠ -1 →
    e.valid = true ∧ 0 ≤ e.physicalPage
  single : ∀ (j : ℕ) a, x.1.spaces[j]? = some a → a.copied = false → a.iptEntries = 1
  first : x.1.spaces.length = 1 ∨ x.1.core.memoryMap.bit 0 = true
  marked : ∀ j v f, frameOf x.1 j v = some f → x.1.core.memoryMap.bit f = true
  shares : PageSharing.Shares (Shared n) (· < x.1.spaces.length) (frameOf x.1)
  agrees : PageSharing.Agrees (· < x.1.spaces.length) (frameOf x.1) (bytes x.1) (viewAt x.2)

variable {b : Build} {n : ℕ} {s s' : System} {vm vm' : Vm} {view : View} {acc : Access}

theorem frame_eq {e e' : TranslationEntry} (h : e'.claim = e.claim) : e'.frame = e.frame := by
  obtain ⟨hp, hv⟩ := claim_eq h
  rw [TranslationEntry.frame, TranslationEntry.frame, hp]
  by_cases hone : e.physicalPage = -1
  · simp [hone]
  · rw [hv hone]

theorem frame_eq_some {e : TranslationEntry} {f : ℕ} :
    e.frame = some f ↔ e.valid = true ∧ e.physicalPage = f := by
  unfold TranslationEntry.frame
  split_ifs with h
  · rw [Option.some.injEq]
    constructor
    · rintro rfl
      exact ⟨h.1, (Int.toNat_of_nonneg h.2).symm⟩
    · rintro ⟨-, hp⟩
      rw [hp, Int.toNat_natCast]
  · constructor
    · intro hno
      cases hno
    · rintro ⟨hv, hp⟩
      exact absurd ⟨hv, by omega⟩ h

structure SameTables (s s' : System) : Prop where
  length : s'.spaces.length = s.spaces.length
  space : ∀ (j : ℕ) a', s'.spaces[j]? = some a' → ∃ a, s.spaces[j]? = some a ∧
    a'.pageTable.length = a.pageTable.length ∧ a'.iptEntries = a.iptEntries ∧ a'.copied = a.copied
  entry : ∀ j v, (s'.entry j v).map TranslationEntry.claim =
    (s.entry j v).map TranslationEntry.claim

theorem frameOf_congr {j v : ℕ} (he : (s'.entry j v).map TranslationEntry.claim =
    (s.entry j v).map TranslationEntry.claim) : frameOf s' j v = frameOf s j v := by
  unfold frameOf
  cases h₁ : s.entry j v with
  | none =>
    rw [h₁, Option.map_none, Option.map_eq_none_iff] at he
    rw [he]
  | some e =>
    rw [h₁, Option.map_some, Option.map_eq_some_iff] at he
    obtain ⟨e', he', hp⟩ := he
    rw [he']
    exact frame_eq hp

theorem SameTables.frameOf (h : SameTables s s') : frameOf s' = frameOf s := by
  funext j v
  exact frameOf_congr (h.entry j v)

theorem placed_congr {e e' : TranslationEntry} (h : e'.claim = e.claim)
    (he : e.physicalPage ≠ -1 → e.valid = true ∧ 0 ≤ e.physicalPage) (hp : e'.physicalPage ≠ -1) :
    e'.valid = true ∧ 0 ≤ e'.physicalPage := by
  obtain ⟨hpp, hv⟩ := claim_eq h
  rw [hpp] at hp ⊢
  rw [hv hp]
  exact he hp

theorem exists_entry {j v : ℕ} {e' : TranslationEntry}
    (h : (s'.entry j v).map TranslationEntry.claim = (s.entry j v).map TranslationEntry.claim)
    (he : s'.entry j v = some e') : ∃ e, s.entry j v = some e ∧ e'.claim = e.claim := by
  rw [he, Option.map_some, eq_comm, Option.map_eq_some_iff] at h
  obtain ⟨e, hse, hp⟩ := h
  exact ⟨e, hse, hp.symm⟩

theorem sameFrames_length {a a' : AddrSpace} (h : a.SameFrames a') :
    a'.pageTable.length = a.pageTable.length := by
  have hmap : a'.pageTable.map (fun e => (e.valid, e.physicalPage)) =
      a.pageTable.map fun e => (e.valid, e.physicalPage) := by
    apply List.ext_getElem?
    intro v
    rw [List.getElem?_map, List.getElem?_map]
    exact h.frames v
  simpa using congrArg List.length hmap

theorem length_put (s : System) (vm' : Vm) : (s.put vm').spaces.length = s.spaces.length :=
  List.length_set

theorem spaces_put (hvm : s.vm = some vm)
    (hl : vm'.space.pageTable.length = vm.space.pageTable.length)
    (hent : vm'.space.iptEntries = vm.space.iptEntries)
    (hc : vm'.space.copied = vm.space.copied) (j : ℕ) (a' : AddrSpace)
    (ha' : (s.put vm').spaces[j]? = some a') : ∃ a, s.spaces[j]? = some a ∧
      a'.pageTable.length = a.pageTable.length ∧ a'.iptEntries = a.iptEntries ∧
        a'.copied = a.copied := by
  rw [System.spaces_put hvm] at ha'
  split_ifs at ha' with hj
  · obtain rfl := Option.some.inj ha'
    exact ⟨vm.space, hj ▸ (System.vm_inv hvm).1, hl, hent, hc⟩
  · exact ⟨a', ha', rfl, rfl, rfl⟩

theorem sameTables_put (hvm : s.vm = some vm) (h : vm.space.SameFrames vm'.space) :
    SameTables s (s.put vm') := by
  refine ⟨length_put s vm', spaces_put hvm (sameFrames_length h) h.iptEntries h.copied,
    fun j v => ?_⟩
  rw [System.entry_put hvm]
  split_ifs with hj
  · rw [hj, System.entry_current hvm]
    exact map_claim (h.frames v)
  · rfl

theorem current_lt (hvm : s.vm = some vm) : s.current < s.spaces.length :=
  (List.getElem?_eq_some_iff.mp (System.vm_inv hvm).1).1

theorem frameOf_performed {r : Option Word} {e : TranslationEntry} {pa : ℕ}
    (hvm : s.vm = some vm) (hm : Meets b s (.access acc)) (h : Performed b acc vm vm' r e pa) :
    ∃ f, frameOf s s.current (acc.addr.toNat / pageSize) = some f ∧
      pa = f * pageSize + acc.addr.toNat % pageSize := by
  have hphys : e.physicalPage = (e.physicalPage.toNat : ℕ) := by
    have := h.reaches.frame
    omega
  refine ⟨e.physicalPage.toNat, ?_, h.reaches.address.symm⟩
  have hfind := h.find
  rw [frameOf, System.entry_current hvm]
  cases b with
  | plain =>
    obtain ⟨he, hv⟩ := Option.filter_eq_some_iff.mp hfind
    rw [he]
    exact frame_eq_some.mpr ⟨hv, hphys⟩
  | vm =>
    obtain ⟨i, hi, rfl⟩ := Option.map_eq_some_iff.mp hfind
    obtain ⟨hv, hvp⟩ := Tlb.lookup_eq_some hi
    obtain ⟨e, he, hval, hpp⟩ := (hm rfl vm hvm).1 i hv hvp
    rw [he]
    exact frame_eq_some.mpr ⟨hval, hpp.trans hphys⟩

theorem page_of_offset (p : ℕ) (o : Fin pageSize) : (p * pageSize + o) / pageSize = p := by
  have := o.isLt
  simp only [pageSize] at *
  omega

theorem stored_store {addr : Word} {size : ℕ} {w : Word}
    (hfit : addr.toNat % pageSize + size ≤ pageSize) (view : View) (j k p : ℕ)
    (o : Fin pageSize) :
    (p = addr.toNat / pageSize ∧ (k = j ∨ Shared n (addr.toNat / pageSize)) ∧
        (addr.toNat % pageSize ≤ o ∧ o < addr.toNat % pageSize + size) ∧
        viewAt (stored n view j (.store addr size w)) k p o =
          some (w.extractLsb' (8 * (o - addr.toNat % pageSize)) 8)) ∨
      ¬(p = addr.toNat / pageSize ∧ (k = j ∨ Shared n (addr.toNat / pageSize)) ∧
        (addr.toNat % pageSize ≤ o ∧ o < addr.toNat % pageSize + size)) ∧
      viewAt (stored n view j (.store addr size w)) k p o = viewAt view k p o := by
  have hrange : (addr.toNat ≤ p * pageSize + o ∧ p * pageSize + o < addr.toNat + size) ↔
      p = addr.toNat / pageSize ∧ addr.toNat % pageSize ≤ o ∧
        o < addr.toNat % pageSize + size := by
    have := o.isLt
    simp only [pageSize] at *
    omega
  simp only [viewAt, stored, noted, page_of_offset]
  by_cases hk : k = j ∨ p < n - stackPages
  · rw [if_pos hk]
    by_cases hin : p = addr.toNat / pageSize ∧ addr.toNat % pageSize ≤ o ∧
        o < addr.toNat % pageSize + size
    · obtain ⟨hp, hlow, hhigh⟩ := hin
      have hsub : p * pageSize + o - addr.toNat = o - addr.toNat % pageSize := by
        simp only [pageSize] at *
        omega
      rw [if_pos (hrange.mpr ⟨hp, hlow, hhigh⟩), hsub]
      rw [hp] at hk
      exact .inl ⟨hp, hk, ⟨hlow, hhigh⟩, rfl⟩
    · rw [if_neg (hrange.not.mpr hin)]
      exact .inr ⟨fun h => hin ⟨h.1, h.2.2⟩, rfl⟩
  · rw [if_neg hk]
    refine .inr ⟨?_, rfl⟩
    rintro ⟨rfl, h, -⟩
    exact hk h

theorem bytes_store {f q size : ℕ} {w : Word} (hfit : q + size ≤ pageSize)
    (hmem : s'.core.mainMemory = s.core.mainMemory.store (f * pageSize + q) size w) :
    (∀ f', f' ≠ f → bytes s' f' = bytes s f') ∧
      (∀ o : Fin pageSize, q ≤ o ∧ o < q + size →
        bytes s' f o = w.extractLsb' (8 * (o - q)) 8) ∧
      ∀ o : Fin pageSize, ¬(q ≤ o ∧ o < q + size) → bytes s' f o = bytes s f o := by
  refine ⟨fun f' hne => ?_, fun o ho => ?_, fun o ho => ?_⟩
  · funext o
    have := o.isLt
    rw [bytes, hmem, Memory.store, if_neg]
    · rfl
    · simp only [pageSize] at *
      omega
  · rw [bytes, hmem, Memory.store, if_pos (by omega)]
    rw [show f * pageSize + o.val - (f * pageSize + q) = o.val - q by omega]
  · rw [bytes, hmem, Memory.store, if_neg (by omega)]
    rfl

theorem stored_load (view : View) (j : ℕ) (addr : Word) (size : ℕ) :
    stored n view j (.load addr size) = view := by
  funext k a
  simp only [stored, noted, ite_self]

theorem Inv.tables (hi : Inv n (s, view)) (hsame : SameTables s s')
    (hmap : s'.core.memoryMap = s.core.memoryMap) {view' : View}
    (hagrees : PageSharing.Agrees (· < s'.spaces.length) (frameOf s') (bytes s') (viewAt view')) :
    Inv n (s', view') := by
  refine ⟨hi.stack, fun j a' ha' => ?_, fun j v e' he' => ?_, fun j a' ha' hc => ?_, ?_,
    fun j v f hf => ?_, ?_, hagrees⟩ <;> dsimp only at *
  · obtain ⟨a, ha, hl, -⟩ := hsame.space j a' ha'
    rw [hl]
    exact hi.pages j a ha
  · obtain ⟨e, he, hce⟩ := exists_entry (hsame.entry j v) he'
    exact placed_congr hce (hi.placed j v e he)
  · obtain ⟨a, ha, -, hent, hcop⟩ := hsame.space j a' ha'
    rw [hent]
    exact hi.single j a ha (hcop ▸ hc)
  · rw [hsame.length, hmap]
    exact hi.first
  · rw [hsame.frameOf] at hf
    rw [hmap]
    exact hi.marked j v f hf
  · rw [hsame.frameOf, hsame.length]
    exact hi.shares

theorem Inv.performed {r : Option Word} {e : TranslationEntry} {pa : ℕ} (hi : Inv n (s, view))
    (hs : sized acc) (hvm : s.vm = some vm) (hm : Meets b s (.access acc))
    (h : Performed b acc vm vm' r e pa) :
    Inv n (s.put vm', stored n view s.current acc) := by
  have hsame := sameTables_put hvm h.frames
  obtain ⟨f, hf, hpa⟩ := frameOf_performed hvm hm h
  have hfit := offset_add_size_le hs h.aligned
  have hcore := (System.vm_inv hvm).2
  have hmap : (s.put vm').core.memoryMap = s.core.memoryMap := by
    rw [hcore]
    exact h.memoryMap
  refine hi.tables hsame hmap ?_
  rw [hsame.frameOf, hsame.length]
  cases acc with
  | load addr size =>
    have hbytes : bytes (s.put vm') = bytes s := by
      funext f o
      rw [bytes, bytes, hcore]
      exact congrFun h.mainMemory _
    rw [stored_load, hbytes]
    exact hi.agrees
  | store addr size w =>
    have hmem : (s.put vm').core.mainMemory =
        s.core.mainMemory.store (f * pageSize + addr.toNat % pageSize) size w := by
      rw [hcore, show f * pageSize + addr.toNat % pageSize = pa from hpa.symm]
      exact h.mainMemory
    obtain ⟨hother, hin, hout⟩ := bytes_store hfit hmem
    exact hi.agrees.write hi.shares hf hother hin hout (stored_store hfit view s.current)

theorem Inv.same (hi : Inv n (s, view)) (hsame : SameTables s s')
    (hmap : s'.core.memoryMap = s.core.memoryMap)
    (hmem : s'.core.mainMemory = s.core.mainMemory) : Inv n (s', view) := by
  have hbytes : bytes s' = bytes s := by
    funext f o
    rw [bytes, bytes, hmem]
  refine hi.tables hsame hmap ?_
  rw [hsame.frameOf, hsame.length, hbytes]
  exact hi.agrees

theorem entry_loaded (hvm : s.vm = some vm) {v : ℕ} (hv : v < vm.space.pageTable.length)
    (f : Fin numPhysPages) (j w : ℕ) :
    ((s.put (vm.loaded v f)).entry j w).map (fun e => (e.valid, e.physicalPage)) =
      if j = s.current ∧ w = v then some (true, (f.val : ℤ))
      else (s.entry j w).map fun e => (e.valid, e.physicalPage) := by
  rw [System.entry_put hvm]
  by_cases hj : j = s.current
  · rw [if_pos hj, hj, System.entry_current hvm]
    have hlen : (vm.space.synced vm.tlb).pageTable.length = vm.space.pageTable.length :=
      List.length_mapIdx
    by_cases hw : w = v
    · rw [if_pos ⟨rfl, hw⟩, hw]
      simp only [Vm.loaded]
      rw [List.getElem?_set_self (by rw [hlen]; exact hv)]
      rfl
    · rw [if_neg (fun h => hw h.2)]
      simp only [Vm.loaded]
      rw [List.getElem?_set_ne (Ne.symm hw)]
      exact synced_map vm.space vm.tlb w
  · rw [if_neg hj, if_neg (fun h => hj h.1)]

/-- A page that is brought in: one of the stack, or of the only thread. -/
theorem Inv.loaded (hi : Inv n (s, view)) (hvm : s.vm = some vm) {v : ℕ} {e : TranslationEntry}
    {f : Fin numPhysPages} (he : vm.space.pageTable[v]? = some e) (hv : e.valid = false)
    (hfree : vm.memoryMap.bit f = false) (hone : s.spaces.length = 1) :
    Inv n (s.put (vm.loaded v f), view) := by
  have hcore := (System.vm_inv hvm).2
  have hlt := (List.getElem?_eq_some_iff.mp he).1
  have hentry := entry_loaded hvm hlt f
  have hfresh : ∀ j w, frameOf s j w ≠ some f.val := by
    intro j w hf
    have hbit := hi.marked j w f.val hf
    rw [hcore, hfree] at hbit
    cases hbit
  have hnone : frameOf s s.current v = none := by
    rw [frameOf, System.entry_current hvm, he]
    simp [TranslationEntry.frame, hv]
  have hself : frameOf (s.put (vm.loaded v f)) s.current v = some f.val := by
    have := hentry s.current v
    rw [if_pos ⟨rfl, rfl⟩, Option.map_eq_some_iff] at this
    obtain ⟨e', he', hp⟩ := this
    obtain ⟨hval, hphys⟩ := Prod.mk.inj hp
    rw [frameOf, he']
    exact frame_eq_some.mpr ⟨hval, hphys⟩
  have hother : ∀ j w, ¬(j = s.current ∧ w = v) →
      frameOf (s.put (vm.loaded v f)) j w = frameOf s j w := by
    intro j w hne
    have := hentry j w
    rw [if_neg hne] at this
    exact frameOf_congr (map_claim this)
  have hbytes : ∀ f', f' ≠ f.val → bytes (s.put (vm.loaded v f)) f' = bytes s f' := by
    intro f' hne
    funext o
    rw [bytes, bytes, hcore]
    have := o.isLt
    have := pageBytes_length_le vm.space v
    refine putBytes_of_outside ?_
    simp only [pageSize] at *
    omega
  have hlen : (vm.loaded v f).space.pageTable.length = vm.space.pageTable.length := by
    rw [Vm.loaded, List.length_set]
    exact List.length_mapIdx
  refine ⟨hi.stack, fun j a' ha' => ?_, fun j w e' he' => ?_, fun j a' ha' hc => ?_,
    .inl ((length_put s _).trans hone), fun j w f' hf' => ?_, ?_, ?_⟩ <;> dsimp only at *
  · obtain ⟨a, ha, hl, -⟩ := spaces_put hvm hlen rfl rfl j a' ha'
    rw [hl]
    exact hi.pages j a ha
  · by_cases hjw : j = s.current ∧ w = v
    · have := hentry j w
      rw [if_pos hjw, he', Option.map_some, Option.some.injEq, Prod.mk.injEq] at this
      rw [this.1, this.2]
      exact fun _ => ⟨rfl, Int.natCast_nonneg _⟩
    · have := hentry j w
      rw [if_neg hjw] at this
      obtain ⟨e₀, he₀, hce⟩ := exists_entry (map_claim this) he'
      exact placed_congr hce (hi.placed j w e₀ he₀)
  · obtain ⟨a, ha, -, hent, hcop⟩ := spaces_put hvm hlen rfl rfl j a' ha'
    rw [hent]
    exact hi.single j a ha (hcop ▸ hc)
  · have hset : ∀ k, (s.put (vm.loaded v f)).core.memoryMap.bit k =
        (decide (k = f.val) || s.core.memoryMap.bit k) := by
      intro k
      rw [hcore]
      exact BitMap.bit_setBit _ f.isLt k
    rw [hset, Bool.or_eq_true, decide_eq_true_eq]
    by_cases hjw : j = s.current ∧ w = v
    · obtain ⟨rfl, rfl⟩ := hjw
      rw [hself] at hf'
      exact .inl (Option.some.inj hf').symm
    · rw [hother j w hjw] at hf'
      exact .inr (hi.marked j w f' hf')
  · rw [length_put]
    refine hi.shares.install hfresh hnone hself hother fun _ j hj => ?_
    have hcur := current_lt hvm
    change j < s.spaces.length at hj
    omega
  · rw [length_put]
    exact hi.agrees.install hfresh hnone hother hbytes

/-- A page fault: after a fork frame 0 is taken, and no page is brought in. -/
theorem Inv.fault (hi : Inv n (s, view)) (hvm : s.vm = some vm) {addr : Word}
    (hframe : vm.frameFor addr) (h : moveraMemoria (faultPageOf addr) vm = .ok () vm') :
    Inv n (s.put vm', view) := by
  obtain ⟨hsp, hcore⟩ := System.vm_inv hvm
  have hmade := moveraMemoria_made h
  have habs : ∀ (v : ℕ) e, vm.space.pageTable[v]? = some e → e.valid = false →
      e.physicalPage = -1 := by
    intro v e he hv
    by_contra hp
    rw [(hi.placed s.current v e (by rw [System.entry_current hvm, he]) hp).1] at hv
    cases hv
  obtain ⟨v, e, he, ⟨-, rfl⟩ | ⟨hv, f, hfree, hent, rfl⟩⟩ := moveraMemoria_cases h hframe habs
  · have hsame : vm.space.SameFrames (vm.space.synced vm.tlb) :=
      ⟨synced_map vm.space vm.tlb, rfl, rfl⟩
    refine hi.same (sameTables_put hvm hsame) ?_ ?_ <;> rw [hcore] <;> rfl
  · refine hi.loaded hvm he hv hfree (hi.first.resolve_right fun hbit => ?_)
    rw [hi.single s.current vm.space hsp hmade, Nat.lt_one_iff] at hent
    rw [hent] at hfree
    rw [hcore, hfree] at hbit
    cases hbit

theorem copy_getElem? {a : AddrSpace} {storage : AddrSpace} {m : BitMap numPhysPages}
    (hl : a.pageTable.length = n) (hn : stackPages ≤ n) (v : ℕ) :
    (a.copy storage m).1.pageTable[v]? =
      if v < n - stackPages then a.pageTable[v]?
      else ((m.finds stackPages).1[v - (n - stackPages)]?).map fun f => residentEntry v f := by
  have htake : (a.pageTable.take (n - stackPages)).length = n - stackPages := by
    rw [List.length_take, hl]
    omega
  simp only [AddrSpace.copy, hl]
  by_cases hv : v < n - stackPages
  · rw [if_pos hv, List.getElem?_append_left (by rw [htake]; exact hv), List.getElem?_take_of_lt hv]
  · rw [if_neg hv, List.getElem?_append_right (by rw [htake]; exact not_lt.mp hv), htake,
      List.getElem?_mapIdx]
    congr 1
    funext f
    rw [show n - stackPages + (v - (n - stackPages)) = v by omega]

theorem length_copy {a storage : AddrSpace} {m : BitMap numPhysPages}
    (hl : a.pageTable.length = n) (hn : stackPages ≤ n) :
    (a.copy storage m).1.pageTable.length = n := by
  simp only [AddrSpace.copy, List.length_append, List.length_take, List.length_mapIdx, hl,
    (m.finds_cases stackPages).1]
  omega

theorem entry_append {core : Core} (a : AddrSpace) (j v : ℕ) :
    System.entry { s with core := core, spaces := s.spaces ++ [a] } j v =
      if j = s.spaces.length then a.pageTable[v]? else s.entry j v := by
  unfold System.entry
  dsimp only
  split_ifs with hj
  · rw [hj, List.getElem?_concat_length]
    rfl
  · rcases Nat.lt_or_gt_of_ne hj with hlt | hgt
    · rw [List.getElem?_append_left hlt]
    · rw [List.getElem?_eq_none (by simp; omega), List.getElem?_eq_none (by omega)]

theorem frame_stack {a storage : AddrSpace} {m : BitMap numPhysPages} {v f : ℕ}
    (hl : a.pageTable.length = n) (hn : stackPages ≤ n) (hv : ¬Shared n v)
    (h : ((a.copy storage m).1.pageTable[v]?).bind TranslationEntry.frame = some f) :
    (m.finds stackPages).1[v - (n - stackPages)]? = some (f : ℤ) := by
  rw [copy_getElem? hl hn, if_neg (show ¬v < n - stackPages from hv)] at h
  cases hz : (m.finds stackPages).1[v - (n - stackPages)]? with
  | none =>
    rw [hz] at h
    cases h
  | some z =>
    rw [hz, Option.map_some] at h
    rw [show z = (f : ℤ) from (frame_eq_some.mp h).2]

theorem bit_zero_finds (m : BitMap numPhysPages) (k : ℕ) : (m.finds (k + 1)).2.bit 0 = true := by
  have hmono := fun m : BitMap numPhysPages => (m.finds_cases k).2.1 0
  obtain ⟨hfind, hfull⟩ | ⟨i, hi, hfind, -, hbelow⟩ := m.find_cases
  · simp only [BitMap.finds, hfind]
    exact hmono m (hfull 0 (by norm_num))
  · simp only [BitMap.finds, hfind]
    refine hmono _ ?_
    rw [BitMap.bit_setBit m hi, Bool.or_eq_true, decide_eq_true_eq]
    obtain rfl | hpos := Nat.eq_zero_or_pos i
    · exact .inl rfl
    · exact .inr (hbelow 0 hpos)

theorem finds_frame {m : BitMap numPhysPages} {k i f : ℕ}
    (h : (m.finds k).1[i]? = some (f : ℤ)) : m.bit f = false ∧ (m.finds k).2.bit f = true := by
  obtain hneg | ⟨c, -, hc, hclear, hset⟩ := (m.finds_cases k).2.2.1 _ (List.mem_of_getElem? h)
  · omega
  · obtain rfl : f = c := by exact_mod_cast hc
    exact ⟨hclear, hset⟩

theorem placed_resident {m : BitMap numPhysPages} {k i v : ℕ} {z : ℤ}
    (h : (m.finds k).1[i]? = some z) (hp : (residentEntry v z).physicalPage ≠ -1) :
    (residentEntry v z).valid = true ∧ 0 ≤ (residentEntry v z).physicalPage := by
  refine ⟨rfl, ?_⟩
  obtain hneg | ⟨c, -, hc, -⟩ := (m.finds_cases k).2.2.1 _ (List.mem_of_getElem? h)
  · exact absurd hneg hp
  · rw [show (residentEntry v z).physicalPage = z from rfl, hc]
    exact Int.natCast_nonneg c

/-- The system with a copy of space `a` behind the others. -/
def withCopy (s : System) (a storage : AddrSpace) : System :=
  { s with
    core := { s.core with memoryMap := (a.copy storage s.core.memoryMap).2 }
    spaces := s.spaces ++ [(a.copy storage s.core.memoryMap).1] }

section copy
variable {a storage : AddrSpace} {v f : ℕ}

theorem entry_withCopy (j v : ℕ) : (withCopy s a storage).entry j v =
    if j = s.spaces.length then (a.copy storage s.core.memoryMap).1.pageTable[v]?
    else s.entry j v := entry_append _ j v

theorem space_withCopy {j : ℕ} {a' : AddrSpace}
    (h : (withCopy s a storage).spaces[j]? = some a') :
    (∃ k : ℕ, s.spaces[k]? = some a') ∨ a' = (a.copy storage s.core.memoryMap).1 := by
  rcases List.mem_append.mp (List.mem_of_getElem? h) with hmem | hmem
  · exact .inl (List.getElem?_of_mem hmem)
  · exact .inr (List.mem_singleton.mp hmem)

theorem live_withCopy : (fun j => j < (withCopy s a storage).spaces.length) =
    fun j => j < s.spaces.length ∨ j = s.spaces.length := by
  funext j
  simp only [withCopy, List.length_append, List.length_singleton, eq_iff_iff]
  omega

theorem frameOf_withCopy_other {j : ℕ} (hj : j ≠ s.spaces.length) :
    frameOf (withCopy s a storage) j = frameOf s j := by
  funext v
  rw [frameOf, entry_withCopy, if_neg hj]
  rfl

theorem frameOf_withCopy_shared (hl : a.pageTable.length = n) (hn : stackPages ≤ n)
    (ha : s.spaces[s.current]? = some a) (hv : Shared n v) :
    frameOf (withCopy s a storage) s.spaces.length v = frameOf s s.current v := by
  rw [frameOf, entry_withCopy, if_pos rfl, copy_getElem? hl hn,
    if_pos (show v < n - stackPages from hv), frameOf, System.entry, ha]
  rfl

theorem frameOf_withCopy_stack (hl : a.pageTable.length = n) (hn : stackPages ≤ n)
    (hv : ¬Shared n v) (hf : frameOf (withCopy s a storage) s.spaces.length v = some f) :
    (s.core.memoryMap.finds stackPages).1[v - (n - stackPages)]? = some (f : ℤ) := by
  rw [frameOf, entry_withCopy, if_pos rfl] at hf
  exact frame_stack hl hn hv hf

end copy

theorem Inv.fork (hi : Inv n (s, view)) {a storage : AddrSpace}
    (ha : s.spaces[s.current]? = some a) :
    Inv n (withCopy s a storage, forked n view s.current s.spaces.length) := by
  have hl := hi.pages s.current a ha
  have hcur : s.current < s.spaces.length := (List.getElem?_eq_some_iff.mp ha).1
  obtain ⟨-, hmono, -, hinj⟩ := s.core.memoryMap.finds_cases stackPages
  have hcommon : ∀ v, Shared n v →
      frameOf (withCopy s a storage) s.spaces.length v = frameOf s s.current v :=
    fun v => frameOf_withCopy_shared hl hi.stack ha
  have hstack : ∀ v f, ¬Shared n v →
      frameOf (withCopy s a storage) s.spaces.length v = some f →
      (s.core.memoryMap.finds stackPages).1[v - (n - stackPages)]? = some (f : ℤ) :=
    fun v f => frameOf_withCopy_stack hl hi.stack
  have hold : ∀ j, j ≠ s.spaces.length → frameOf (withCopy s a storage) j = frameOf s j :=
    fun j => frameOf_withCopy_other
  refine ⟨hi.stack, fun j a' ha' => ?_, fun j v e he hp => ?_, fun j a' ha' hc => ?_, .inr ?_,
    fun j v f hf => ?_, ?_, ?_⟩
  · obtain ⟨k, hk⟩ | rfl := space_withCopy ha'
    · exact hi.pages k a' hk
    · exact length_copy hl hi.stack
  · dsimp only at he
    rw [entry_withCopy] at he
    by_cases hj : j = s.spaces.length
    · rw [if_pos hj, copy_getElem? hl hi.stack] at he
      by_cases hc : v < n - stackPages
      · rw [if_pos hc] at he
        exact hi.placed s.current v e (by rw [System.entry, ha]; exact he) hp
      · rw [if_neg hc, Option.map_eq_some_iff] at he
        obtain ⟨z, hz, rfl⟩ := he
        exact placed_resident hz hp
    · rw [if_neg hj] at he
      exact hi.placed j v e he hp
  · obtain ⟨k, hk⟩ | rfl := space_withCopy ha'
    · exact hi.single k a' hk hc
    · cases hc
  · exact bit_zero_finds _ 7
  · change (s.core.memoryMap.finds stackPages).2.bit f = true
    by_cases hj : j = s.spaces.length
    · rw [hj] at hf
      by_cases hc : Shared n v
      · rw [hcommon v hc] at hf
        exact hmono f (hi.marked s.current v f hf)
      · exact (finds_frame (hstack v f hc hf)).2
    · rw [hold j hj] at hf
      exact hmono f (hi.marked j v f hf)
  · dsimp only
    rw [live_withCopy]
    refine hi.shares.fork hcur hcommon hold (fun v f hc hf j w hjw => ?_)
      fun v w f hv hw hf hf' => ?_
    · have hbit := hi.marked j w f hjw
      dsimp only at hbit
      rw [(finds_frame (hstack v f hc hf)).1] at hbit
      cases hbit
    · have hidx := hinj _ _ f (hstack v f hv hf) (hstack w f hw hf')
      unfold Shared at hv hw
      omega
  · dsimp only
    rw [live_withCopy]
    refine hi.agrees.fork hcur hcommon hold (fun j hj => ?_) fun v o => ?_
    · funext v o
      simp only [viewAt, forked, Function.update_of_ne hj]
    · simp only [viewAt, forked, Function.update_self, page_of_offset]
      by_cases hc : v < n - stackPages
      · exact .inl ⟨hc, if_pos hc⟩
      · exact .inr (if_neg hc)

theorem Inv.switch (hi : Inv n (s, view)) {next : ℕ} (hm : Meets b s (.switch next))
    (h : s.step (.switch next) = some s') : Inv n (s', view) := by
  simp only [System.step] at h
  split_ifs at h
  obtain ⟨s₁, hrun, rfl⟩ := Option.map_eq_some_iff.mp h
  obtain ⟨vm, vm', hvm, hsave, rfl⟩ := System.run_inv hrun
  obtain ⟨-, rfl⟩ := saveState_inv hsave
  have hcore := (System.vm_inv hvm).2
  have hsame : SameTables s
      (s.put (vm.withPages (vm.space.pageTable.mapIdx (saveEntry vm.tlb)))) := by
    refine ⟨length_put s _, spaces_put hvm List.length_mapIdx rfl rfl, fun j v => ?_⟩
    rw [System.entry_put hvm]
    split_ifs with hj
    · rw [hj, System.entry_current hvm]
      simp only [Vm.withPages, List.getElem?_mapIdx, Option.map_map]
      cases he : vm.space.pageTable[v]? with
      | none => rfl
      | some e =>
        have hplaced := hi.placed s.current v e (by rw [System.entry_current hvm, he])
        exact congrArg some (saveEntry_claim (hm vm hvm) he hplaced)
    · rfl
  have hput : Inv n
      (s.put (vm.withPages (vm.space.pageTable.mapIdx (saveEntry vm.tlb))), view) := by
    refine hi.same hsame ?_ ?_ <;> rw [hcore] <;> rfl
  exact ⟨hput.stack, hput.pages, hput.placed, hput.single, hput.first, hput.marked, hput.shares,
    hput.agrees⟩

theorem only_space {a a' : AddrSpace} {j : ℕ} (hs : s.spaces = [a]) (h : s.spaces[j]? = some a') :
    j = 0 ∧ a' = a := by
  rw [hs] at h
  have hj := (List.getElem?_eq_some_iff.mp h).1
  exact ⟨by simpa using hj, List.mem_singleton.mp (List.mem_of_getElem? h)⟩

theorem entry_only {a : AddrSpace} {j v : ℕ} {e : TranslationEntry} (hs : s.spaces = [a])
    (h : s.entry j v = some e) : j = 0 ∧ a.pageTable[v]? = some e := by
  obtain ⟨a', ha', he⟩ := Option.bind_eq_some_iff.mp h
  obtain ⟨hj, rfl⟩ := only_space hs ha'
  exact ⟨hj, he⟩

theorem agrees_noted_nothing (live : ℕ → Prop) (map : PageSharing.PageMap ℕ ℕ ℕ)
    (mem : ℕ → Fin pageSize → Byte) :
    PageSharing.Agrees live map mem (viewAt fun _ _ => none) := by
  intro i v k b hi hb
  cases hb

/-- With `VM` no page is in memory yet. -/
theorem inv_start_vm {noffH : NoffHeader} {file : HostFile}
    (hs : s.spaces = [AddrSpace.new noffH file]) :
    Inv noffH.numPages (s, fun _ _ => none) := by
  have hentry : ∀ j v e, s.entry j v = some e → e.valid = false ∧ e.physicalPage = -1 := by
    intro j v e he
    rw [new_getElem? (entry_only hs he).2]
    exact ⟨rfl, rfl⟩
  have hnone : ∀ j v f, frameOf s j v ≠ some f := by
    intro j v f hf
    obtain ⟨e, he, hfr⟩ := Option.bind_eq_some_iff.mp hf
    have hv := (frame_eq_some.mp hfr).1
    rw [(hentry j v e he).1] at hv
    cases hv
  refine ⟨noffH.stack_le_numPages, fun j a ha => ?_,
    fun j v e he hp => absurd (hentry j v e he).2 hp, fun j a ha _ => ?_, .inl (by rw [hs]; rfl),
    fun j v f hf => absurd hf (hnone j v f),
    ⟨fun _ hf => absurd hf (hnone _ _ _), fun hf => absurd hf (hnone _ _ _)⟩,
    agrees_noted_nothing _ _ _⟩
  · obtain ⟨-, rfl⟩ := only_space hs ha
    simp [AddrSpace.new]
  · obtain ⟨-, rfl⟩ := only_space hs ha
    rfl

/-- Without `VM` the constructor has placed every page it had a frame for. -/
theorem inv_start_plain {noffH : NoffHeader} {file : HostFile} {mem : Memory} {r : Loaded}
    (hload : noffH.load file mem (.empty _) = .ok r)
    (hs : s.spaces = [{ AddrSpace.new noffH file with pageTable := r.pageTable }])
    (hmap : s.core.memoryMap = r.memoryMap) :
    Inv noffH.numPages (s, fun _ _ => none) := by
  obtain ⟨htable, hr⟩ := Life.load_frames hload
  obtain ⟨hlen, -, -, hinj⟩ := (BitMap.empty numPhysPages).finds_cases noffH.numPages
  have hentry : ∀ j v e, s.entry j v = some e → j = 0 ∧
      ∃ z, ((BitMap.empty numPhysPages).finds noffH.numPages).1[v]? = some z ∧
        e = residentEntry v z := by
    intro j v e he
    obtain ⟨hj, he⟩ := entry_only hs he
    rw [htable, List.getElem?_mapIdx, Option.map_eq_some_iff] at he
    obtain ⟨z, hz, rfl⟩ := he
    exact ⟨hj, z, hz, rfl⟩
  have hframe : ∀ j v f, frameOf s j v = some f → j = 0 ∧
      ((BitMap.empty numPhysPages).finds noffH.numPages).1[v]? = some (f : ℤ) := by
    intro j v f hf
    obtain ⟨e, he, hfr⟩ := Option.bind_eq_some_iff.mp hf
    obtain ⟨hj, z, hz, rfl⟩ := hentry j v e he
    rw [hz, show z = (f : ℤ) from (frame_eq_some.mp hfr).2]
    exact ⟨hj, rfl⟩
  refine ⟨noffH.stack_le_numPages, fun j a ha => ?_, fun j v e he hp => ?_, fun j a ha _ => ?_,
    .inl (by rw [hs]; rfl), fun j v f hf => ?_, ⟨?_, ?_⟩, agrees_noted_nothing _ _ _⟩
  · obtain ⟨-, rfl⟩ := only_space hs ha
    rw [htable, List.length_mapIdx, hlen]
  · obtain ⟨-, z, hz, rfl⟩ := hentry j v e he
    exact placed_resident hz hp
  · obtain ⟨-, rfl⟩ := only_space hs ha
    rfl
  · change s.core.memoryMap.bit f = true
    rw [hmap, hr]
    exact (finds_frame (hframe j v f hf).2).2
  · intro j j' v f _ hf hlive
    dsimp only at hf hlive ⊢
    rw [hs, List.length_singleton, Nat.lt_one_iff] at hlive
    rw [hlive, ← (hframe j v f hf).1]
    exact hf
  · intro j j' v v' f hf hf'
    obtain ⟨hj, hz⟩ := hframe j v f hf
    obtain ⟨hj', hz'⟩ := hframe j' v' f hf'
    exact ⟨hinj v v' f hz hz', .inl (hj.trans hj'.symm)⟩

theorem inv_start {x : System × View} (h : Start b n x) : Inv n x := by
  obtain ⟨s, view⟩ := x
  obtain ⟨-, rfl, noffH, file, rfl, h⟩ := h
  cases b with
  | vm => exact inv_start_vm h.1
  | plain =>
    obtain ⟨mem, r, hload, hs, -, hmap⟩ := h
    exact inv_start_plain hload hs hmap

theorem Inv.step {x x' : System × View} (hi : Inv n x) (h : MeetStep b n x x') : Inv n x' := by
  obtain ⟨s, view⟩ := x
  obtain ⟨ev, hm, h⟩ := h
  cases ev with
  | access acc =>
    simp only [Forks.step] at h
    split_ifs at h with hs
    simp only [access] at h
    cases hvm : s.vm with
    | none =>
      rw [hvm] at h
      cases h
    | some vm =>
      rw [hvm] at h
      dsimp only at h
      cases hp : acc.perform b vm with
      | error t vm' =>
        rw [hp] at h
        cases h
      | ok r vm' =>
        rw [hp] at h
        obtain rfl := Option.some.inj h
        obtain ⟨e, pa, hperf⟩ | ⟨rfl, rfl, hf, hmov⟩ := perform_cases hp
        · rw [if_pos hperf.isSome]
          exact hi.performed hs hvm hm hperf
        · obtain ⟨-, hframe⟩ := (hm rfl vm hvm).2 hf
          have hi₀ : Inv n ({ s with core := { s.core with lastFault := faultPageOf acc.addr } },
              view) :=
            hi.same ⟨rfl, fun _ a ha => ⟨a, ha, rfl, rfl, rfl⟩, fun _ _ => rfl⟩ rfl rfl
          exact hi₀.fault (System.vm_lastFault hvm _) hframe hmov
  | fork storage =>
    simp only [Forks.step, Forks.fork] at h
    cases ha : s.spaces[s.current]? with
    | none =>
      rw [ha] at h
      cases h
    | some a =>
      rw [ha] at h
      obtain rfl := Option.some.inj h
      exact hi.fork ha
  | switch next =>
    cases b with
    | plain => cases h
    | vm =>
      obtain ⟨s', hs', rfl⟩ := Option.map_eq_some_iff.mp h
      exact hi.switch hm hs'

theorem Inv.load (hi : Inv n (s, view)) {addr : Word} {size pa i : ℕ} {v : Word}
    {e : TranslationEntry} (hs : sized (.load addr size)) (hvm : s.vm = some vm)
    (hm : Meets b s (.access (.load addr size)))
    (h : Performed b (.load addr size) vm vm' (some v) e pa) (hlt : i < size) :
    sees s s.current (addr.toNat + i) = some (v.extractLsb' (8 * i) 8) ∧
      ∀ byte, view s.current (addr.toNat + i) = some byte → v.extractLsb' (8 * i) 8 = byte := by
  obtain ⟨f, hf, rfl⟩ := frameOf_performed hvm hm h
  have hf' : frameOf s s.current (addr.toNat / pageSize) = some f := hf
  have hfit : addr.toNat % pageSize + size ≤ pageSize := offset_add_size_le hs h.aligned
  obtain ⟨hdiv, hmod⟩ := div_mod_of_lt hfit hlt
  have hread : vm.mainMemory.read (f * pageSize + addr.toNat % pageSize) size = some v :=
    h.value.symm
  have hsees : sees s s.current (addr.toNat + i) = some (v.extractLsb' (8 * i) 8) := by
    rw [Memory.extract_read hread hlt, sees, PageSharing.seen, hdiv, hf', Option.map_some, bytes,
      (System.vm_inv hvm).2]
    dsimp only
    rw [hmod, Nat.add_assoc]
  refine ⟨hsees, fun byte hv => ?_⟩
  have hview : viewAt view s.current ((addr.toNat + i) / pageSize)
      ⟨(addr.toNat + i) % pageSize, Nat.mod_lt _ (by decide)⟩ = some byte := by
    rw [viewAt, Nat.div_add_mod']
    exact hv
  have hseen : sees s s.current (addr.toNat + i) = some byte :=
    hi.agrees _ _ _ _ (current_lt hvm) hview
  rw [hsees] at hseen
  exact Option.some.inj hseen

theorem Inv.seen_store (hi : Inv n (s, view)) {addr : Word} {size pa : ℕ} {w : Word}
    {r : Option Word} {e : TranslationEntry} (hs : sized (.store addr size w))
    (hvm : s.vm = some vm) (hm : Meets b s (.access (.store addr size w)))
    (h : Performed b (.store addr size w) vm vm' r e pa)
    (hstack : ¬Shared n (addr.toNat / pageSize)) {j : ℕ} (hj : j ≠ s.current) (a : ℕ) :
    sees (s.put vm') j a = sees s j a := by
  obtain ⟨f, hf, rfl⟩ := frameOf_performed hvm hm h
  have hfit := offset_add_size_le hs h.aligned
  have hmem : (s.put vm').core.mainMemory =
      s.core.mainMemory.store (f * pageSize + addr.toNat % pageSize) size w := by
    rw [(System.vm_inv hvm).2]
    exact h.mainMemory
  rw [sees, sees, (sameTables_put hvm h.frames).frameOf]
  refine hi.shares.seen_of_write hf (bytes_store hfit hmem).1 _ ?_
  rintro ⟨-, rfl | hc⟩
  · exact hj rfl
  · exact hstack hc

theorem Inv.served (hi : Inv n (s, view)) {r : Option Word} (hvm : s.vm = some vm)
    (hf : acc.faults vm) (h : acc.perform .vm vm = .ok r vm') :
    vm.space.copied = false ∧ vm.frameFor acc.addr := by
  obtain ⟨e, pa, hperf⟩ | ⟨-, -, -, hm⟩ := perform_cases h
  · obtain ⟨i, hi, -⟩ := Option.map_eq_some_iff.mp hperf.find
    obtain ⟨hv, hvp⟩ := Tlb.lookup_eq_some hi
    exact absurd hvp (lookup_of_faults hf i hv)
  · have hmade := moveraMemoria_made hm
    have hone := hi.single s.current vm.space (System.vm_inv hvm).1 hmade
    have hframe := moveraMemoria_frameFor
      (s := { vm with lastFault := faultPageOf acc.addr }) hone hm
    exact ⟨hmade, hframe⟩

/-- In a run whose steps meet the condition, in either build: a load returns the bytes that the
thread sees, which are those that were last stored there, by any thread below the stack; a store to
the stack is seen by no other thread; and a page fault comes back only if it meets the condition. -/
theorem threads_share {x : System × View} (h : Reachable (Start b n) (MeetStep b n) x) :
    (∀ addr size v vm vm', sized (.load addr size) → Meets b x.1 (.access (.load addr size)) →
      x.1.vm = some vm → Access.perform b (.load addr size) vm = .ok (some v) vm' →
      ∀ i < size, sees x.1 x.1.current (addr.toNat + i) = some (v.extractLsb' (8 * i) 8) ∧
        ∀ byte, x.2 x.1.current (addr.toNat + i) = some byte →
          v.extractLsb' (8 * i) 8 = byte) ∧
    (∀ addr size w r vm vm', sized (.store addr size w) →
      Meets b x.1 (.access (.store addr size w)) → x.1.vm = some vm →
      Access.perform b (.store addr size w) vm = .ok (some r) vm' →
      ¬Shared n (addr.toNat / pageSize) →
      ∀ j ≠ x.1.current, ∀ a, sees (x.1.put vm') j a = sees x.1 j a) ∧
    ∀ acc r vm vm', x.1.vm = some vm → acc.faults vm → Access.perform .vm acc vm = .ok r vm' →
      vm.space.copied = false ∧ vm.frameFor acc.addr := by
  have hi : Inv n x := h.invariant (fun _ => inv_start) fun _ _ hi h => hi.step h
  obtain ⟨s, view⟩ := x
  refine ⟨fun addr size v vm vm' hs hm hvm hp i hlt => ?_,
    fun addr size w r vm vm' hs hm hvm hp hstack j hj a => ?_,
    fun acc r vm vm' hvm hf hp => hi.served hvm hf hp⟩
  · obtain ⟨e, pa, hperf⟩ | ⟨-, hno, -⟩ := perform_cases hp
    · exact hi.load hs hvm hm hperf hlt
    · cases hno
  · obtain ⟨e, pa, hperf⟩ | ⟨-, hno, -⟩ := perform_cases hp
    · exact hi.seen_store hs hvm hm hperf hstack hj a
    · cases hno

def bootThread : System × View :=
  ({ core := bootVm.toCore, spaces := [AddrSpace.new dataProgram []], current := 0 },
    fun _ _ => none)

theorem start_bootThread : Start .vm 40 bootThread :=
  ⟨rfl, rfl, dataProgram, [], rfl, rfl, rfl, rfl, rfl, fun _ => ⟨rfl, rfl⟩⟩

def finds (b : Build) (x : System × View) (a : Word) (byte : Byte) : Bool :=
  match x.1.vm with
  | none => false
  | some vm =>
    match (Access.load a 1).perform b vm with
    | .ok (some v) _ => v.extractLsb' 0 8 == byte
    | _ => false

theorem finds_inv {x : System × View} {a : Word} {byte : Byte} (h : finds b x a byte = true) :
    ∃ vm vm' v, x.1.vm = some vm ∧ (Access.load a 1).perform b vm = .ok (some v) vm' ∧
      v.extractLsb' 0 8 = byte := by
  unfold finds at h
  split at h
  · cases h
  · rename_i vm hvm
    split at h
    · rename_i v vm' hp
      exact ⟨vm, vm', v, hvm, hp, by simpa using h⟩
    · cases h

def traps (x : System × View) (acc : Access) : Bool :=
  match x.1.vm with
  | none => false
  | some vm =>
    match acc.perform .vm vm with
    | .error t _ => decide (t = .memory)
    | .ok _ _ => false

theorem traps_inv {x : System × View} (h : traps x acc = true) :
    ∃ vm vm', x.1.vm = some vm ∧ acc.perform .vm vm = .error .memory vm' := by
  unfold traps at h
  split at h
  · cases h
  · rename_i vm hvm
    split at h
    · rename_i t vm' hp
      rw [of_decide_eq_true h] at hp
      exact ⟨vm, vm', hvm, hp⟩
    · cases h

def meets (s : System) : Event → Bool
  | .access acc =>
    match s.vm with
    | none => false
    | some vm =>
      decide (∀ i, (vm.tlb i).valid = true →
        (vm.tlb i).virtualPage = (acc.addr.toNat / pageSize : ℕ) →
        ((vm.space.pageTable[acc.addr.toNat / pageSize]?).any fun e =>
          e.valid && decide (e.physicalPage = (vm.tlb i).physicalPage)) = true) &&
      ((vm.tlb.lookup (acc.addr.toNat / pageSize : ℕ)).isSome ||
        !vm.space.copied && (System.Event.access acc).frameFree s)
  | .fork _ => true
  | .switch next => (System.Event.switch next).frameFree s

theorem meets_sound {ev : Event} (h : meets s ev = true) : Meets b s ev := by
  cases ev with
  | fork storage => trivial
  | access acc =>
    intro _ vm hvm
    simp only [meets, hvm, Bool.and_eq_true, Bool.or_eq_true, decide_eq_true_eq,
      Option.any_eq_true] at h
    obtain ⟨hslot, hframe⟩ := h
    refine ⟨fun i hv hvp => ?_, fun hf => ?_⟩
    · obtain ⟨e, he, hval, hphys⟩ := hslot i hv hvp
      exact ⟨e, he, hval, hphys⟩
    · obtain hhit | ⟨hmade, hfree⟩ := hframe
      · obtain ⟨i, hi⟩ := Option.isSome_iff_exists.mp hhit
        obtain ⟨hv, hvp⟩ := Tlb.lookup_eq_some hi
        exact absurd hvp (lookup_of_faults hf i hv)
      · exact ⟨by simpa using hmade, System.keepsFrames_of_frameFree hfree vm hvm hf⟩
  | switch next =>
    have hfree : (System.Event.switch next).frameFree s = true := h
    exact System.keepsFrames_of_frameFree hfree

def tryMeet (b : Build) (n : ℕ) (x : System × View) (ev : Event) : Option (System × View) :=
  if meets x.1 ev then step b n x ev else none

theorem meetStep_of_tryMeet {x x' : System × View} {ev : Event} (h : tryMeet b n x ev = some x') :
    MeetStep b n x x' := by
  unfold tryMeet at h
  split_ifs at h with hm
  exact ⟨ev, meets_sound hm, h⟩

def twice (acc : Access) : List Event := [.access acc, .access acc]

def writeThenFork : List Event :=
  twice (.store (pageAddr 1) 1 0xaa) ++ [.fork (.new dataProgram []), .switch 1]

theorem threads_share_fork : ∃ x vm vm' v,
    writeThenFork.foldlM (tryMeet .vm 40) bootThread = some x ∧ x.1.current = 1 ∧ x.1.vm = some vm ∧
    (Access.load (pageAddr 1) 1).perform .vm vm = .ok (some v) vm' ∧ v.extractLsb' 0 8 = 0xaa := by
  have hrun : (writeThenFork.foldlM (tryMeet .vm 40) bootThread).any
      (fun x : System × View => decide (x.1.current = 1) && finds .vm x (pageAddr 1) 0xaa &&
        meets x.1 (.access (.load (pageAddr 1) 1)) &&
        decide (x.2 x.1.current (pageAddr 1).toNat = some 0xaa)) = true := by
    decide +kernel
  obtain ⟨x, hx, hall⟩ := (Option.any_eq_true _ _).mp hrun
  simp only [Bool.and_eq_true, decide_eq_true_eq] at hall
  obtain ⟨⟨⟨hcur, hfinds⟩, hmeets⟩, hview⟩ := hall
  obtain ⟨vm, vm', v, hvm, hp, -⟩ := finds_inv hfinds
  have hreach : Reachable (Start .vm 40) (MeetStep .vm 40) x :=
    Reachable.of_foldlM (fun x ev x' (h : tryMeet .vm 40 x ev = some x') => meetStep_of_tryMeet h)
      (.init start_bootThread) hx
  have hload := (threads_share hreach).1 (pageAddr 1) 1 v vm vm' (.inl rfl) (meets_sound hmeets) hvm
    hp 0 (by norm_num)
  exact ⟨x, vm, vm', v, hx, hcur, hvm, hp, hload.2 0xaa hview⟩

/-- A page of the stack is written, and is in the TLB when the new thread runs. -/
def stackThenFork : List Event :=
  twice (.store (pageAddr 39) 1 0xbb) ++ [.fork (.new dataProgram []), .switch 1]

theorem reachable_step {evs : List Event} {x : System × View}
    (h : evs.foldlM (step b n) bootThread = some x) (hstart : Start b n bootThread) :
    Reachable (Start b n) (Step b n) x :=
  Reachable.of_foldlM (fun x ev x' (h : step b n x ev = some x') => ⟨ev, h⟩) (.init hstart) h

/-- A page below the stack that is first touched after the fork gets a frame behind the one entry
of `ipt`, and the store does not come back. The store to the parent's stack is seen by the child. -/
theorem threads_not_sharing :
    (∃ x vm vm', Reachable (Start .vm 40) (Step .vm 40) x ∧ x.1.vm = some vm ∧
      x.1.spaces.length = 2 ∧
      (Access.store (pageAddr 1) 1 0xaa).perform .vm vm = .error .memory vm') ∧
    ∃ x vm vm' v, Reachable (Start .vm 40) (Step .vm 40) x ∧ x.1.vm = some vm ∧
      x.1.current = 1 ∧ (Access.load (pageAddr 39) 1).perform .vm vm = .ok (some v) vm' ∧
      x.2 0 (pageAddr 39).toNat = some 0xbb ∧ x.2 1 (pageAddr 39).toNat = none ∧
      v.extractLsb' 0 8 = 0xbb := by
  constructor
  · have hrun : (step .vm 40 bootThread (.fork (.new dataProgram []))).any
        (fun x : System × View => decide (x.1.spaces.length = 2) &&
          traps x (.store (pageAddr 1) 1 0xaa)) = true := by
      decide +kernel
    obtain ⟨x, hx, hall⟩ := (Option.any_eq_true _ _).mp hrun
    simp only [Bool.and_eq_true, decide_eq_true_eq] at hall
    obtain ⟨vm, vm', hvm, hp⟩ := traps_inv hall.2
    exact ⟨x, vm, vm', .step (.init start_bootThread) ⟨_, hx⟩, hvm, hall.1, hp⟩
  · have hrun : (stackThenFork.foldlM (step .vm 40) bootThread).any
        (fun x : System × View => finds .vm x (pageAddr 39) 0xbb && decide (x.1.current = 1) &&
          decide (x.2 0 (pageAddr 39).toNat = some 0xbb) &&
          decide (x.2 1 (pageAddr 39).toNat = none)) = true := by
      decide +kernel
    obtain ⟨x, hx, hall⟩ := (Option.any_eq_true _ _).mp hrun
    simp only [Bool.and_eq_true, decide_eq_true_eq] at hall
    obtain ⟨⟨⟨hfinds, hcur⟩, h₀⟩, h₁⟩ := hall
    obtain ⟨vm, vm', v, hvm, hp, hv⟩ := finds_inv hfinds
    exact ⟨x, vm, vm', v, reachable_step hx start_bootThread, hvm, hcur, hp, h₀, h₁, hv⟩

end Nachos.Forks
