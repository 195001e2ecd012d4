import Mathlib.Data.List.Forall2

/-!
# Calls of a service

A service answers one call after another, and it remembers something between them. When a state that is remembered can be
described by what has been asked, whether all answers are right is a matter of the calls alone.

- `Follows`: the description, with what it says of one call;
- `forall₂_answers_iff`: the calls that are all answered as they should be;
- `proper_iff`: a condition on each call and on the calls before it.
-/

namespace Service

variable {σ α β τ : Type*}

/-- The answers to the calls, as long as there are any. -/
def answers (step : σ → α → Option (β × σ)) : σ → List α → List β
  | _, [] => []
  | s, a :: as =>
    match step s a with
    | none => []
    | some (b, s') => b :: answers step s' as

/-- Each call is fine where it is made. `next` is what becomes of the description. -/
def Proper (ok : τ → α → Prop) (next : τ → α → τ) : τ → List α → Prop
  | _, [] => True
  | t, a :: as => ok t a ∧ Proper ok next (next t a) as

theorem proper_iff {ok : τ → α → Prop} {next : τ → α → τ} {t : τ} {as : List α} :
    Proper ok next t as ↔ ∀ before a behind, as = before ++ a :: behind → ok (before.foldl next t) a := by
  induction as generalizing t with
  | nil => simp [Proper]
  | cons a as ih =>
    constructor
    · rintro ⟨ha, has⟩ before a' behind heq
      cases before with
      | nil =>
        obtain ⟨rfl, -⟩ := List.cons.inj heq
        exact ha
      | cons c before =>
        obtain ⟨rfl, hrest⟩ := List.cons.inj heq
        exact ih.mp has before a' behind hrest
    · intro h
      exact ⟨h [] a as rfl, ih.mpr fun before a' behind heq => h (a :: before) a' behind (heq ▸ rfl)⟩

/-- **The state follows the calls**: a call is answered if it is `live`, the answer is right if and only if the call is
fine, and then the description goes on. -/
structure Follows (step : σ → α → Option (β × σ)) (live : α → Bool) (right : α → β → Prop) (ok : τ → α → Prop)
    (next : τ → α → τ) (rel : σ → τ → Prop) : Prop where
  stops : ∀ {s t a}, rel s t → live a = false → step s a = none
  replies : ∀ {s t a}, rel s t → live a = true →
    ∃ b s', step s a = some (b, s') ∧ (right a b ↔ ok t a) ∧ (ok t a → rel s' (next t a))

variable {step : σ → α → Option (β × σ)} {live : α → Bool} {right : α → β → Prop} {ok : τ → α → Prop} {next : τ → α → τ}
  {rel : σ → τ → Prop}

/-- **All answers are right, if and only if all calls are fine.** -/
theorem Follows.forall₂_answers_iff (h : Follows step live right ok next rel) {s : σ} {t : τ} (hs : rel s t)
    (as : List α) :
    List.Forall₂ right (as.takeWhile live) (answers step s as) ↔ Proper ok next t (as.takeWhile live) := by
  induction as generalizing s t with
  | nil => simp [answers, Proper]
  | cons a as ih =>
    unfold answers
    cases ha : live a with
    | false =>
      rw [h.stops hs ha, List.takeWhile_cons_of_neg (by simp [ha])]
      simp [Proper]
    | true =>
      obtain ⟨b, s', hstep, hright, hnext⟩ := h.replies hs ha
      rw [hstep, List.takeWhile_cons_of_pos ha]
      dsimp only
      rw [List.forall₂_cons, hright]
      exact and_congr_right fun hok => ih (hnext hok)

end Service
