import Mathlib.Logic.Function.Basic
import Mathlib.Data.Set.Basic

/-! Threads that map pages to frames of one memory: some pages are common to all of them and the
others are private. What a thread sees is what the frames it maps hold; a write to a common page
is seen by every thread and a write to a private page by the writer only. -/
namespace Nachos.PageSharing

variable {T P F O B : Type*}

abbrev PageMap (T P F : Type*) := T → P → Option F

def seen (map : PageMap T P F) (mem : F → O → B) (t : T) (p : P) (o : O) : Option B :=
  (map t p).map fun f => mem f o

/-- Live threads map a common page to one frame, and no frame is used otherwise twice. -/
structure Shares (common : P → Prop) (live : T → Prop) (map : PageMap T P F) : Prop where
  same : ∀ {t t' p f}, common p → map t p = some f → live t' → map t' p = some f
  apart : ∀ {t t' p p' f}, map t p = some f → map t' p' = some f → p = p' ∧ (t = t' ∨ common p)

/-- What is known of the bytes that were written is what the threads see. -/
def Agrees (live : T → Prop) (map : PageMap T P F) (mem : F → O → B)
    (view : T → P → O → Option B) : Prop :=
  ∀ t p o b, live t → view t p o = some b → seen map mem t p o = some b

variable {common : P → Prop} {live : T → Prop} {map map' : PageMap T P F} {mem mem' : F → O → B}
  {view view' : T → P → O → Option B} {t : T} {p : P} {f : F}

theorem Shares.map_eq (h : Shares common live map) (hf : map t p = some f) {t' : T}
    (ht : t' = t ∨ common p) (hlive : live t') : map t' p = some f := by
  obtain rfl | hc := ht
  · exact hf
  · exact h.same hc hf hlive

/-- A write to frame `f` is not seen through other pages, nor by other threads if it is private. -/
theorem Shares.seen_of_write (h : Shares common live map) (hf : map t p = some f)
    (hmem : ∀ f', f' ≠ f → mem' f' = mem f') {t' : T} {p' : P} (o : O)
    (hne : ¬(p' = p ∧ (t' = t ∨ common p))) : seen map mem' t' p' o = seen map mem t' p' o := by
  unfold seen
  cases hf' : map t' p' with
  | none => rfl
  | some f' =>
    have hff : f' ≠ f := by
      rintro rfl
      obtain ⟨rfl, ht⟩ := h.apart hf hf'
      exact hne ⟨rfl, ht.imp_left Eq.symm⟩
    rw [Option.map_some, Option.map_some, hmem f' hff]

theorem seen_of_unmapped (hfresh : ∀ t p, map t p ≠ some f) (hmem : ∀ f', f' ≠ f → mem' f' = mem f')
    (t : T) (p : P) (o : O) : seen map mem' t p o = seen map mem t p o := by
  unfold seen
  cases hf' : map t p with
  | none => rfl
  | some f' =>
    have hff : f' ≠ f := by
      rintro rfl
      exact hfresh t p hf'
    rw [Option.map_some, Option.map_some, hmem f' hff]

theorem Agrees.write {W : O → Prop} {val : O → B} (h : Shares common live map)
    (ha : Agrees live map mem view) (hf : map t p = some f)
    (hmem : ∀ f', f' ≠ f → mem' f' = mem f') (hin : ∀ o, W o → mem' f o = val o)
    (hout : ∀ o, ¬W o → mem' f o = mem f o)
    (hview : ∀ t' p' o, p' = p ∧ (t' = t ∨ common p) ∧ W o ∧ view' t' p' o = some (val o) ∨
      ¬(p' = p ∧ (t' = t ∨ common p) ∧ W o) ∧ view' t' p' o = view t' p' o) :
    Agrees live map mem' view' := by
  intro t' p' o b hlive hb
  obtain ⟨rfl, ht, hw, hv⟩ | ⟨hne, hv⟩ := hview t' p' o
  · rw [hv] at hb
    rw [seen, h.map_eq hf ht hlive, Option.map_some, hin o hw, hb]
  · rw [hv] at hb
    have hold := ha t' p' o b hlive hb
    by_cases hp : p' = p ∧ (t' = t ∨ common p)
    · obtain ⟨rfl, ht⟩ := hp
      have hw : ¬W o := fun hw => hne ⟨rfl, ht, hw⟩
      rw [seen, h.map_eq hf ht hlive, Option.map_some] at hold ⊢
      rw [hout o hw, hold]
    · rw [h.seen_of_write hf hmem o hp, hold]

/-- A page that was not mapped gets a frame that no thread maps: a private page, or a page of the
only thread. -/
theorem Shares.install (h : Shares common live map) (hfresh : ∀ t p, map t p ≠ some f)
    (hnone : map t p = none) (hself : map' t p = some f)
    (hother : ∀ t' p', ¬(t' = t ∧ p' = p) → map' t' p' = map t' p')
    (honly : common p → ∀ t', live t' → t' = t) : Shares common live map' := by
  have hcases : ∀ t' p' f', map' t' p' = some f' → (t' = t ∧ p' = p ∧ f' = f) ∨
      (¬(t' = t ∧ p' = p) ∧ map t' p' = some f') := by
    intro t' p' f' hf'
    by_cases htp : t' = t ∧ p' = p
    · obtain ⟨rfl, rfl⟩ := htp
      rw [hself, Option.some.injEq] at hf'
      exact .inl ⟨rfl, rfl, hf'.symm⟩
    · exact .inr ⟨htp, hother t' p' htp ▸ hf'⟩
  refine ⟨fun {t₁ t₂ p' f'} hc hf' hlive => ?_, fun {t₁ t₂ p₁ p₂ f'} hf₁ hf₂ => ?_⟩
  · obtain ⟨rfl, rfl, rfl⟩ | ⟨htp, hf'⟩ := hcases t₁ p' f' hf'
    · rw [honly hc t₂ hlive, hself]
    · have hf₂ := h.same hc hf' hlive
      by_cases htp₂ : t₂ = t ∧ p' = p
      · obtain ⟨rfl, rfl⟩ := htp₂
        rw [hnone] at hf₂
        cases hf₂
      · rw [hother t₂ p' htp₂, hf₂]
  · obtain ⟨rfl, rfl, rfl⟩ | ⟨-, hf₁⟩ := hcases t₁ p₁ f' hf₁
    · obtain ⟨rfl, rfl, -⟩ | ⟨-, hf₂⟩ := hcases t₂ p₂ f' hf₂
      · exact ⟨rfl, .inl rfl⟩
      · exact absurd hf₂ (hfresh t₂ p₂)
    · obtain ⟨rfl, rfl, rfl⟩ | ⟨-, hf₂⟩ := hcases t₂ p₂ f' hf₂
      · exact absurd hf₁ (hfresh t₁ p₁)
      · exact h.apart hf₁ hf₂

theorem Agrees.install (ha : Agrees live map mem view) (hfresh : ∀ t p, map t p ≠ some f)
    (hnone : map t p = none) (hother : ∀ t' p', ¬(t' = t ∧ p' = p) → map' t' p' = map t' p')
    (hmem : ∀ f', f' ≠ f → mem' f' = mem f') : Agrees live map' mem' view := by
  intro t' p' o b hlive hb
  have hold := ha t' p' o b hlive hb
  have htp : ¬(t' = t ∧ p' = p) := by
    rintro ⟨rfl, rfl⟩
    rw [seen, hnone] at hold
    cases hold
  rw [← seen_of_unmapped hfresh hmem] at hold
  rw [seen, hother t' p' htp]
  exact hold

/-- A new thread with the common pages of another and private pages in frames of their own. -/
theorem Shares.fork {t₀ : T} (h : Shares common live map) (hlive : live t)
    (hcommon : ∀ p, common p → map' t₀ p = map t p) (hother : ∀ t', t' ≠ t₀ → map' t' = map t')
    (hfresh : ∀ p f, ¬common p → map' t₀ p = some f → ∀ t' p', map t' p' ≠ some f)
    (hinj : ∀ p p' f, ¬common p → ¬common p' → map' t₀ p = some f → map' t₀ p' = some f → p = p') :
    Shares common (fun t' => live t' ∨ t' = t₀) map' := by
  have hold : ∀ {t₁ p f}, common p → map' t₁ p = some f → map t p = some f := by
    intro t₁ p f hc hf
    by_cases ht : t₁ = t₀
    · rw [← hcommon p hc, ← ht, hf]
    · rw [hother t₁ ht] at hf
      exact h.same hc hf hlive
  refine ⟨fun {t₁ t₂ p f} hc hf hlive' => ?_, fun {t₁ t₂ p₁ p₂ f} hf₁ hf₂ => ?_⟩
  · have hf := hold hc hf
    by_cases ht : t₂ = t₀
    · rw [ht, hcommon p hc, hf]
    · rw [hother t₂ ht]
      exact h.same hc hf (hlive'.resolve_right ht)
  · by_cases hc₁ : common p₁
    · have hm₁ := hold hc₁ hf₁
      by_cases hc₂ : common p₂
      · exact ⟨(h.apart hm₁ (hold hc₂ hf₂)).1, .inr hc₁⟩
      · by_cases ht₂ : t₂ = t₀
        · exact absurd hm₁ (hfresh p₂ f hc₂ (ht₂ ▸ hf₂) t p₁)
        · rw [hother t₂ ht₂] at hf₂
          exact ⟨(h.apart hm₁ hf₂).1, .inr hc₁⟩
    · by_cases ht₁ : t₁ = t₀
      · have hnew := hfresh p₁ f hc₁ (ht₁ ▸ hf₁)
        by_cases ht₂ : t₂ = t₀
        · have hc₂ : ¬common p₂ := fun hc₂ => hnew t p₂ (hold hc₂ hf₂)
          exact ⟨hinj p₁ p₂ f hc₁ hc₂ (ht₁ ▸ hf₁) (ht₂ ▸ hf₂), .inl (ht₁.trans ht₂.symm)⟩
        · rw [hother t₂ ht₂] at hf₂
          exact absurd hf₂ (hnew t₂ p₂)
      · rw [hother t₁ ht₁] at hf₁
        by_cases ht₂ : t₂ = t₀
        · by_cases hc₂ : common p₂
          · obtain ⟨rfl, -⟩ := h.apart hf₁ (hold hc₂ hf₂)
            exact absurd hc₂ hc₁
          · exact absurd hf₁ (hfresh p₂ f hc₂ (ht₂ ▸ hf₂) t₁ p₁)
        · rw [hother t₂ ht₂] at hf₂
          exact h.apart hf₁ hf₂

theorem Agrees.fork {t₀ : T} (ha : Agrees live map mem view) (hlive : live t)
    (hcommon : ∀ p, common p → map' t₀ p = map t p) (hother : ∀ t', t' ≠ t₀ → map' t' = map t')
    (hkeep : ∀ t', t' ≠ t₀ → view' t' = view t')
    (hview : ∀ p o, (common p ∧ view' t₀ p o = view t p o) ∨ view' t₀ p o = none) :
    Agrees (fun t' => live t' ∨ t' = t₀) map' mem view' := by
  intro t' p o b hlive' hb
  by_cases ht : t' = t₀
  · subst ht
    obtain ⟨hc, hv⟩ | hv := hview p o
    · rw [hv] at hb
      rw [seen, hcommon p hc]
      exact ha t p o b hlive hb
    · rw [hv] at hb
      cases hb
  · rw [hkeep t' ht] at hb
    rw [seen, hother t' ht]
    exact ha t' p o b (hlive'.resolve_right ht) hb

end Nachos.PageSharing
