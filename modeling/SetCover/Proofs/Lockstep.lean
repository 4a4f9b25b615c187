import SetCover.Traced

/-!
# Computations side by side

`Together R x y` says that two computations give values that are related by `R`; if they report
events, they report the same ones.  So `Together Eq x x` says that a computation cannot fail.

`Follows lax cut R x y` is weaker.  A fault of `x` is one of `y` as well, and if `x` gives a value,
then `y` gives a related one and reports the same.  If `lax` holds, nothing is said about faults,
and of a value that was `cut` short only this: what `x` reports is what `y` reports first.
-/

namespace SetCover

variable {α β γ δ : Type} {R : α → β → Prop} {S : γ → δ → Prop}

/-- Both computations give a value, and the values are related. -/
def Together (R : α → β → Prop) (x : Except Fault α) (y : Except Fault β) : Prop :=
  ∃ a b, x = .ok a ∧ y = .ok b ∧ R a b

namespace Together

variable {x : Except Fault α} {y : Except Fault β}

theorem ok {a : α} {b : β} (h : R a b) : Together R (.ok a) (.ok b) := ⟨a, b, rfl, rfl, h⟩

theorem bind {f : α → Except Fault γ} {g : β → Except Fault δ} (h : Together R x y)
    (hfg : ∀ a b, x = .ok a → R a b → Together S (f a) (g b)) :
    Together S (x >>= f) (y >>= g) := by
  obtain ⟨a, b, rfl, rfl, hab⟩ := h
  exact hfg a b rfl hab

end Together

namespace Traced

variable {x : Traced α} {y : Traced β}

theorem bind_eq_ok_iff {f : α → Traced γ} {c : γ} {events : List Event} :
    x >>= f = .ok (c, events) ↔ ∃ a before after,
      x = .ok (a, before) ∧ f a = .ok (c, after) ∧ events = before ++ after := by
  change Traced.bind x f = .ok (c, events) ↔ _
  unfold Traced.bind
  constructor
  · intro h
    split at h
    · cases h
    · rename_i a before
      split at h
      · cases h
      · rename_i b after hf
        cases h
        exact ⟨a, before, after, rfl, hf, rfl⟩
  · rintro ⟨a, before, after, rfl, hf, rfl⟩
    dsimp only
    rw [hf]

theorem bind_eq_error_iff {f : α → Traced γ} {e : Fault} : x >>= f = .error e ↔
    x = .error e ∨ ∃ a events, x = .ok (a, events) ∧ f a = .error e := by
  change Traced.bind x f = .error e ↔ _
  unfold Traced.bind
  constructor
  · intro h
    split at h
    · cases h
      exact Or.inl rfl
    · rename_i a before
      split at h
      · rename_i e' hf
        cases h
        exact Or.inr ⟨a, before, rfl, hf⟩
      · cases h
  · rintro (rfl | ⟨a, before, rfl, hf⟩)
    · rfl
    · dsimp only
      rw [hf]

theorem eq_of_liftM {z : Except Fault α} {a : α} {events : List Event}
    (h : (liftM z : Traced α) = .ok (a, events)) : z = .ok a ∧ events = [] := by
  cases z with
  | error e => exact nomatch h
  | ok b =>
      cases h
      exact ⟨rfl, rfl⟩

/-- Both computations give a value and report the same, and the values are related. -/
def Together (R : α → β → Prop) (x : Traced α) (y : Traced β) : Prop :=
  ∃ a b events, x = .ok (a, events) ∧ y = .ok (b, events) ∧ R a b

namespace Together

theorem pure {a : α} {b : β} (h : R a b) : Together R (pure a) (pure b) := ⟨a, b, [], rfl, rfl, h⟩

theorem emit (e : Event) : Together Eq (emit e) (emit e) := ⟨(), (), [e], rfl, rfl, rfl⟩

theorem lift {x : Except Fault α} {y : Except Fault β} (h : SetCover.Together R x y) :
    Together R (liftM x) (liftM y) := by
  obtain ⟨a, b, rfl, rfl, hab⟩ := h
  exact .pure hab

theorem bind {f : α → Traced γ} {g : β → Traced δ} (h : Together R x y)
    (hfg : ∀ a b, x.result = .ok a → R a b → Together S (f a) (g b)) :
    Together S (x >>= f) (y >>= g) := by
  obtain ⟨a, b, before, hx, hy, hab⟩ := h
  obtain ⟨c, d, after, hc, hd, hcd⟩ := hfg a b (by rw [hx]; rfl) hab
  exact ⟨c, d, before ++ after, bind_eq_ok_iff.2 ⟨a, before, after, hx, hc, rfl⟩,
    bind_eq_ok_iff.2 ⟨b, before, after, hy, hd, rfl⟩, hcd⟩

theorem imp {R' : α → β → Prop} (h : Together R x y)
    (himp : ∀ a b, x.result = .ok a → R a b → R' a b) : Together R' x y := by
  obtain ⟨a, b, events, rfl, rfl, hab⟩ := h
  exact ⟨a, b, events, rfl, rfl, himp a b rfl hab⟩

end Together

/-- What `x` does, `y` does as well; if `lax`, then `y` may go on where `x` was cut short. -/
structure Follows (lax : Prop) (cut : α → Prop) (R : α → β → Prop) (x : Traced α)
    (y : Traced β) : Prop where
  fault : ∀ e, x = .error e → lax ∨ y = .error e
  value : ∀ a events, x = .ok (a, events) → ¬(lax ∧ cut a) →
    ∃ b, y = .ok (b, events) ∧ R a b
  isPrefix : ∀ a events, x = .ok (a, events) → lax ∧ cut a →
    ∀ b events', y = .ok (b, events') → events <+: events'

namespace Follows

variable {lax : Prop} {cut : α → Prop} {cut' : γ → Prop}

theorem of_together (h : Together R x y) : Follows lax cut R x y := by
  obtain ⟨a, b, events, rfl, rfl, hab⟩ := h
  refine ⟨fun e he => (nomatch he), fun a' events' hx _ => ?_, fun a' events' hx _ b' es hy => ?_⟩
  · cases hx
    exact ⟨b, rfl, hab⟩
  · cases hx
    cases hy
    exact List.prefix_rfl

theorem error (e : Fault) : Follows lax cut R (.error e) (.error e) :=
  ⟨fun _ h => Or.inr (by cases h; rfl), fun _ _ h => (nomatch h), fun _ _ h => (nomatch h)⟩

/-- If `x` was cut short before any event, nothing more is to be shown. -/
theorem of_cut {a : α} (hlax : lax) (hcut : cut a) : Follows lax cut R (Pure.pure a) y := by
  refine ⟨fun _ _ => Or.inl hlax, fun a' events h hnot => ?_, fun a' events h _ _ _ _ => ?_⟩
  · cases h
    exact absurd ⟨hlax, hcut⟩ hnot
  · cases h
    exact List.nil_prefix

/-- A computation that goes on from a value that was cut short must end without events, and its
value must count as cut short, too. -/
theorem bind {f : α → Traced γ} {g : β → Traced δ} (h : Follows lax cut R x y)
    (hfg : ∀ a b, x.result = .ok a → y.result = .ok b → R a b → Follows lax cut' S (f a) (g b))
    (hcut : lax → ∀ a c events, cut a → f a = .ok (c, events) → cut' c ∧ events = []) :
    Follows lax cut' S (x >>= f) (y >>= g) := by
  have hfg : ∀ a b before before', x = .ok (a, before) → y = .ok (b, before') → R a b →
      Follows lax cut' S (f a) (g b) := fun a b _ _ hx hy =>
    hfg a b (by rw [hx]; rfl) (by rw [hy]; rfl)
  refine ⟨fun e he => ?_, fun c events hc hnot => ?_, fun c events hc hlax d events' hd => ?_⟩
  · rcases bind_eq_error_iff.1 he with hx | ⟨a, before, hx, hf⟩
    · exact (h.fault e hx).imp_right fun hy => bind_eq_error_iff.2 (Or.inl hy)
    · by_cases hlax : lax
      · exact Or.inl hlax
      · obtain ⟨b, hy, hab⟩ := h.value a before hx fun h => hlax h.1
        refine ((hfg a b _ _ hx hy hab).fault e hf).imp_right fun hg => ?_
        exact bind_eq_error_iff.2 (Or.inr ⟨b, before, hy, hg⟩)
  · obtain ⟨a, before, after, hx, hf, rfl⟩ := bind_eq_ok_iff.1 hc
    have hnot' : ¬(lax ∧ cut a) := fun h => hnot ⟨h.1, (hcut h.1 a c after h.2 hf).1⟩
    obtain ⟨b, hy, hab⟩ := h.value a before hx hnot'
    obtain ⟨d, hg, hcd⟩ := (hfg a b _ _ hx hy hab).value c after hf hnot
    exact ⟨d, bind_eq_ok_iff.2 ⟨b, before, after, hy, hg, rfl⟩, hcd⟩
  · obtain ⟨a, before, after, hx, hf, rfl⟩ := bind_eq_ok_iff.1 hc
    obtain ⟨b, before', after', hy, hg, rfl⟩ := bind_eq_ok_iff.1 hd
    by_cases hcuta : cut a
    · obtain ⟨-, rfl⟩ := hcut hlax.1 a c after hcuta hf
      rw [List.append_nil]
      exact (h.isPrefix a before hx ⟨hlax.1, hcuta⟩ b before' hy).trans (List.prefix_append _ _)
    · obtain ⟨b', hy', hab⟩ := h.value a before hx fun h => hcuta h.2
      cases hy'.symm.trans hy
      exact (List.prefix_append_right_inj before).2
        ((hfg a b _ _ hx hy hab).isPrefix c after hf hlax d after' hg)

/-- What comes first cannot be cut short if it cannot fail. -/
theorem bind_together {f : α → Traced γ} {g : β → Traced δ} (h : Together R x y)
    (hfg : ∀ a b, x.result = .ok a → y.result = .ok b → R a b → Follows lax cut' S (f a) (g b)) :
    Follows lax cut' S (x >>= f) (y >>= g) :=
  have hfollows : Follows lax (fun _ => False) R x y := of_together h
  hfollows.bind hfg fun _ _ _ _ hcut => hcut.elim

/-- Nothing needs to be known of what comes first if it is the same in both. -/
theorem bind_lift {z : Except Fault α} {f : α → Traced γ} {g : α → Traced δ}
    (hfg : ∀ a, Follows lax cut' S (f a) (g a)) :
    Follows lax cut' S (liftM z >>= f) (liftM z >>= g) := by
  cases z with
  | error e => exact .error e
  | ok a => exact .bind_together (.lift (.ok (R := Eq) rfl)) fun b c _ _ hbc => hbc ▸ hfg b

end Follows

end Traced

end SetCover
