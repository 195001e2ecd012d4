import Mathlib.Data.List.Forall2

/-!
# A partial function along a list

`l.mapM f`, for an `f` that may fail, has the results of `f` in the order of the elements, if every element has one
(`mapM_eq_some_iff`).
-/

namespace Traverse

variable {α β : Type} {f : α → Option β} {l : List α} {bs : List β}

/-- **The results stand beside the elements.** -/
theorem mapM_eq_some_iff : l.mapM f = some bs ↔ List.Forall₂ (fun x b => f x = some b) l bs := by
  induction l generalizing bs with
  | nil =>
    rw [List.forall₂_nil_left_iff]
    exact ⟨fun h => (Option.some.inj h).symm, fun h => congrArg some h.symm⟩
  | cons x l ih =>
    rw [List.mapM_cons, List.forall₂_cons_left_iff]
    constructor
    · intro h
      obtain ⟨b, hb, h⟩ := Option.bind_eq_some_iff.mp h
      obtain ⟨bs', hbs, h⟩ := Option.bind_eq_some_iff.mp h
      exact ⟨b, bs', hb, ih.mp hbs, (Option.some.inj h).symm⟩
    · rintro ⟨b, bs', hb, hbs, rfl⟩
      rw [hb, ih.mpr hbs]
      rfl

theorem length_eq (h : l.mapM f = some bs) : l.length = bs.length := (Iff.mp mapM_eq_some_iff h).length_eq

theorem mem_iff (h : l.mapM f = some bs) (b : β) : b ∈ bs ↔ ∃ x ∈ l, f x = some b := by
  have hall := Iff.mp mapM_eq_some_iff h
  clear h
  induction hall with
  | nil => simp
  | @cons x c l bs hx _ ih =>
    have hhead : f x = some b ↔ b = c := by rw [hx, Option.some.injEq, eq_comm]
    simp only [List.mem_cons, exists_eq_or_imp, hhead, ih]

theorem isSome (h : l.mapM f = some bs) : ∀ x ∈ l, (f x).isSome := by
  have hall := Iff.mp mapM_eq_some_iff h
  clear h
  induction hall with
  | nil => exact nofun
  | cons hx _ ih =>
    refine List.forall_mem_cons.mpr ⟨?_, ih⟩
    rw [hx]
    rfl

theorem exists_of_forall (h : ∀ x ∈ l, ∃ b, f x = some b) : ∃ bs, l.mapM f = some bs := by
  induction l with
  | nil => exact ⟨[], rfl⟩
  | cons x l ih =>
    obtain ⟨b, hb⟩ := h x List.mem_cons_self
    obtain ⟨bs, hbs⟩ := ih fun y hy => h y (List.mem_cons_of_mem x hy)
    exact ⟨b :: bs, by rw [List.mapM_cons, hb, hbs]; rfl⟩

theorem mapM_map {f' : α → Option β} {g : β → β} (h : ∀ x ∈ l, f' x = (f x).map g) :
    l.mapM f' = (l.mapM f).map (List.map g) := by
  induction l with
  | nil => rfl
  | cons x l ih =>
    rw [List.mapM_cons, List.mapM_cons, h x List.mem_cons_self, ih fun y hy => h y (List.mem_cons_of_mem x hy)]
    cases f x with
    | none => rfl
    | some y => cases l.mapM f <;> rfl

end Traverse
