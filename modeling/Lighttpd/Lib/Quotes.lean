import Mathlib.Data.List.Basic

/-!
# Text with quoted strings

A text is read from the left: a quote opens a string or closes it, and in a string an escape character takes the next
character with it. `Balanced` is a text whose strings are all closed, and which has neither the escape character nor one of the
`special` characters outside of them.

- `Within.append`, `within_plain`: how the texts are made;
- `not_balanced_within`: no text is balanced and closes a string that has been opened in front of it;
- `Balanced.no_seam`: so a balanced text does not end in another one, behind a special character and no quote.
-/

namespace Quotes

variable {α : Type} [DecidableEq α] {quote esc c : α} {special : α → Prop} {s t : List α}

/-- Where a character stands. -/
inductive Place where
  | outside
  | inside
  | escaped
deriving DecidableEq

def Place.next (quote esc c : α) : Place → Place
  | .outside => if c = quote then .inside else .outside
  | .inside => if c = quote then .outside else if c = esc then .escaped else .inside
  | .escaped => .inside

def Within (quote esc : α) (special : α → Prop) : Place → List α → Place → Prop
  | p, [], q => p = q
  | p, c :: s, q => (p = .outside → c ≠ esc ∧ ¬ special c) ∧ Within quote esc special (p.next quote esc c) s q

/-- **The text is balanced.** -/
def Balanced (quote esc : α) (special : α → Prop) (s : List α) : Prop := Within quote esc special .outside s .outside

variable {p q r : Place}

theorem within_append : Within quote esc special p (s ++ t) r ↔
    ∃ q, Within quote esc special p s q ∧ Within quote esc special q t r := by
  induction s generalizing p with
  | nil => simp [Within]
  | cons c s ih =>
    simp only [List.cons_append, Within, ih, and_assoc]
    exact exists_and_left.symm

theorem Within.append (hs : Within quote esc special p s q) (ht : Within quote esc special q t r) :
    Within quote esc special p (s ++ t) r := Iff.mpr within_append ⟨q, hs, ht⟩

theorem within_plain (hs : ∀ c ∈ s, c ≠ quote ∧ c ≠ esc) (hspecial : p = .outside → ∀ c ∈ s, ¬ special c)
    (hp : p ≠ .escaped) : Within quote esc special p s p := by
  induction s with
  | nil => rfl
  | cons c s ih =>
    rw [List.forall_mem_cons] at hs
    have hnext : p.next quote esc c = p := by
      cases p with
      | outside => simp [Place.next, hs.1.1]
      | inside => simp [Place.next, hs.1.1, hs.1.2]
      | escaped => exact absurd rfl hp
    refine ⟨fun h => ⟨hs.1.2, hspecial h c List.mem_cons_self⟩, ?_⟩
    rw [hnext]
    exact ih hs.2 fun h c hc => hspecial h c (List.mem_cons_of_mem _ hc)

theorem Within.inside_of_plain (h : Within quote esc special .inside s q) (hs : ∀ c ∈ s, c ≠ quote ∧ c ≠ esc) :
    q = .inside := by
  induction s with
  | nil => exact h.symm
  | cons c s ih =>
    rw [List.forall_mem_cons] at hs
    have hrest := h.2
    rw [show Place.inside.next quote esc c = .inside by simp [Place.next, hs.1.1, hs.1.2]] at hrest
    exact ih hrest hs.2

theorem within_string (hs : Within quote esc special .inside s .inside) (hquote : quote ≠ esc) (hspecial : ¬ special quote) :
    Within quote esc special .outside (quote :: (s ++ [quote])) .outside := by
  refine ⟨fun _ => ⟨hquote, hspecial⟩, ?_⟩
  rw [show Place.outside.next quote esc quote = .inside by simp [Place.next]]
  exact hs.append ⟨nofun, by simp [Place.next, Within]⟩

/-- **A balanced text closes no string in front of it**: seen from there its quotes open what they close. -/
theorem not_balanced_within : Balanced quote esc special s → ¬ Within quote esc special .inside s .outside := by
  unfold Balanced
  induction s with
  | nil => exact fun _ => nofun
  | cons c s ih =>
    rintro ⟨hesc, hout⟩ ⟨-, hin⟩
    have hne := (hesc rfl).1
    by_cases hc : c = quote
    · rw [show Place.outside.next quote esc c = .inside by simp [Place.next, hc]] at hout
      rw [show Place.inside.next quote esc c = .outside by simp [Place.next, hc]] at hin
      exact ih hin hout
    · rw [show Place.outside.next quote esc c = .outside by simp [Place.next, hc]] at hout
      rw [show Place.inside.next quote esc c = .inside by simp [Place.next, hc, hne]] at hin
      exact ih hout hin

/-- **A balanced text does not end in another one** behind a special character and characters that say nothing about
strings. -/
theorem Balanced.no_seam {u : List α} (hc : special c) (hne : c ≠ quote ∧ c ≠ esc) (ht : ∀ d ∈ t, d ≠ quote ∧ d ≠ esc)
    (hu : Balanced quote esc special u) : ¬ Balanced quote esc special (s ++ c :: (t ++ u)) := by
  intro h
  obtain ⟨q, -, hq⟩ := Iff.mp within_append h
  obtain ⟨hspecial, hrest⟩ := hq
  -- the special character stands in a string
  have hnext : q.next quote esc c = .inside := by
    cases q with
    | outside => exact absurd hc (hspecial rfl).2
    | inside => simp [Place.next, hne.1, hne.2]
    | escaped => rfl
  rw [hnext] at hrest
  obtain ⟨q', ht', hu'⟩ := Iff.mp within_append hrest
  rw [ht'.inside_of_plain ht] at hu'
  exact not_balanced_within hu hu'

end Quotes
