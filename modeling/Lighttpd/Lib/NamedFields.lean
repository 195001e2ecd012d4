import Mathlib.Algebra.GroupWithZero.Nat
import Mathlib.Data.List.Basic

/-!
# Text made of named fields

A text of fields, each with a separator, its name, a mark and its value. The names have neither the separator nor the mark.

- `split_first`, `split_last`: where a text is cut at a character;
- `next_field`, `last_field`: how a field is read off the text, if its value has no mark, or no separator;
- `field_cut`: where a field may begin in another text;
- `occurrences_fields`: the places at which a field begins are the fields and those in the values.
-/

namespace NamedFields

variable {α : Type} {sep eq c : α} {s s' t t' : List α}

/-! ## Cutting a text -/

theorem split_first (hs : c ∉ s) (hs' : c ∉ s') (h : s ++ c :: t = s' ++ c :: t') : s = s' ∧ t = t' := by
  induction s generalizing s' with
  | nil =>
    cases s' with
    | nil => exact ⟨rfl, (List.cons.inj h).2⟩
    | cons d s' =>
      rw [List.mem_cons, not_or] at hs'
      exact absurd (List.cons.inj h).1 hs'.1
  | cons d s ih =>
    rw [List.mem_cons, not_or] at hs
    cases s' with
    | nil => exact absurd (List.cons.inj h).1.symm hs.1
    | cons d' s' =>
      rw [List.mem_cons, not_or] at hs'
      obtain ⟨hd, hrest⟩ := List.cons.inj h
      obtain ⟨hss, ht⟩ := ih hs.2 hs'.2 hrest
      exact ⟨by rw [hd, hss], ht⟩

theorem split_last (ht : c ∉ t) (ht' : c ∉ t') (h : s ++ c :: t = s' ++ c :: t') : s = s' ∧ t = t' := by
  have hrev := congrArg List.reverse h
  simp only [List.reverse_append, List.reverse_cons, List.append_assoc, List.singleton_append] at hrev
  obtain ⟨ht, hs⟩ := split_first (by simpa using ht) (by simpa using ht') hrev
  exact ⟨List.reverse_inj.mp hs, List.reverse_inj.mp ht⟩

/-! ## Reading fields -/

def field (sep eq : α) (n v : List α) : List α := sep :: (n ++ eq :: v)

variable {n m v v' x rest rest' : List α}

theorem next_field (hne : eq ≠ sep) (hv : eq ∉ v) (hv' : eq ∉ v') (hn : eq ∉ n)
    (h : v ++ field sep eq n rest = v' ++ field sep eq n rest') : v = v' ∧ rest = rest' := by
  have hmark : ∀ u : List α, eq ∉ u → eq ∉ u ++ sep :: n := fun u hu => by simp [hu, hne, hn]
  have hassoc : ∀ u r : List α, u ++ field sep eq n r = (u ++ sep :: n) ++ eq :: r := fun u r => by simp [field]
  rw [hassoc, hassoc] at h
  obtain ⟨hvalue, hrest⟩ := split_first (hmark v hv) (hmark v' hv') h
  exact ⟨List.append_cancel_right hvalue, hrest⟩

theorem last_field (hne : eq ≠ sep) (hn : sep ∉ n) (hv : sep ∉ v) (hv' : sep ∉ v')
    (h : s ++ field sep eq n v = s' ++ field sep eq n v') : s = s' ∧ v = v' := by
  have hsep : ∀ u : List α, sep ∉ u → sep ∉ n ++ eq :: u := fun u hu => by simp [hu, hne.symm, hn]
  obtain ⟨hs, hvalue⟩ := split_last (hsep v hv) (hsep v' hv') h
  exact ⟨hs, (List.cons.inj (List.append_cancel_left hvalue)).2⟩

/-- **Where a field begins** in a text that begins with a value and a field: it is this field, or behind it. -/
theorem field_cut (hne : eq ≠ sep) (hv : eq ∉ v) (hn : eq ∉ n) (hm : eq ∉ m) (hnsep : sep ∉ n) (hmsep : sep ∉ m)
    (h : v ++ field sep eq n rest = x ++ field sep eq m rest') :
    (x = v ∧ m = n ∧ rest = rest') ∨ ∃ y, x = v ++ field sep eq n y ∧ rest = y ++ field sep eq m rest' := by
  have hassoc : ∀ u k r : List α, u ++ field sep eq k r = (u ++ sep :: k) ++ eq :: r := fun u k r => by simp [field]
  have hvn : eq ∉ v ++ sep :: n := by simp [hv, hne, hn]
  by_cases hx : eq ∈ x
  · obtain ⟨a, y, rfl, ha⟩ := List.eq_append_cons_of_mem hx
    have hsplit : (v ++ sep :: n) ++ eq :: rest = a ++ eq :: (y ++ field sep eq m rest') := by
      rw [← hassoc, h, List.append_assoc, List.cons_append]
    obtain ⟨hav, hrest⟩ := split_first hvn ha hsplit
    exact .inr ⟨y, by rw [hassoc, hav], hrest⟩
  · rw [hassoc, hassoc] at h
    obtain ⟨hfield, hrest⟩ := split_first hvn (by simp [hx, hne, hm]) h
    obtain ⟨hxv, hmn⟩ := split_last hnsep hmsep hfield
    exact .inl ⟨hxv.symm, hmn.symm, hrest⟩

/-! ## Where fields begin -/

/-- The beginning of a field. -/
def mark (sep eq : α) (n : List α) : List α := sep :: (n ++ [eq])

/-- A text does not reach over a character that it has at most in its first place. -/
theorem prefix_over {pat : List α} {d : α} (hc : c ∉ pat.tail) (hp : pat <+: d :: (s ++ c :: t)) : pat <+: d :: s := by
  have hds : d :: s <+: d :: (s ++ c :: t) := List.prefix_append (d :: s) (c :: t)
  rcases List.prefix_or_prefix_of_prefix hp hds with h | ⟨z, rfl⟩
  · exact h
  · have hrest : z <+: c :: t := (List.prefix_append_right_inj (d :: s)).mp hp
    rcases List.prefix_cons_iff.mp hrest with rfl | ⟨z', rfl, -⟩
    · simp
    · simp at hc

variable [DecidableEq α]

/-- The places at which a text has another one. -/
def occurrences (pat : List α) : List α → Nat
  | [] => 0
  | c :: s => (if pat.isPrefixOf (c :: s) then 1 else 0) + occurrences pat s

theorem occurrences_eq_zero (h : eq ∉ s) : occurrences (mark sep eq n) s = 0 := by
  induction s with
  | nil => rfl
  | cons c s ih =>
    have hprefix : ¬ (mark sep eq n).isPrefixOf (c :: s) = true := fun hp =>
      h ((List.isPrefixOf_iff_prefix.mp hp).subset (by simp [mark]))
    rw [List.mem_cons, not_or] at h
    rw [occurrences, if_neg hprefix, ih h.2]

/-- **A text in two parts**, of which the second begins with a character that the other text has at most in its first
place. -/
theorem occurrences_append {pat : List α} (hc : c ∉ pat.tail) (s t : List α) :
    occurrences pat (s ++ c :: t) = occurrences pat s + occurrences pat (c :: t) := by
  induction s with
  | nil => simp [occurrences]
  | cons d s ih =>
    have hiff : pat.isPrefixOf (d :: (s ++ c :: t)) = pat.isPrefixOf (d :: s) := by
      rw [Bool.eq_iff_iff, List.isPrefixOf_iff_prefix, List.isPrefixOf_iff_prefix]
      exact ⟨prefix_over hc, fun hp => hp.trans (List.prefix_append (d :: s) (c :: t))⟩
    rw [List.cons_append, occurrences, occurrences, hiff, ih, Nat.add_assoc]

/-- Two parts with a character between them that the other text does not have. -/
theorem occurrences_over {pat : List α} (hc : c ∉ pat) (hpat : pat ≠ []) (s t : List α) :
    occurrences pat (s ++ c :: t) = occurrences pat s + occurrences pat t := by
  have hprefix : ¬ pat.isPrefixOf (c :: t) = true := by
    obtain ⟨d, pat, rfl⟩ := List.exists_cons_of_ne_nil hpat
    rw [List.mem_cons, not_or] at hc
    rw [List.isPrefixOf_iff_prefix, List.cons_prefix_cons]
    exact fun h => hc.1 h.1.symm
  rw [occurrences_append (fun h => hc (List.mem_of_mem_tail h)), occurrences, if_neg hprefix, Nat.zero_add]

theorem occurrences_skip (hs : sep ∉ s) (t : List α) : occurrences (mark sep eq n) (s ++ t) = occurrences (mark sep eq n) t := by
  induction s with
  | nil => rfl
  | cons c s ih =>
    rw [List.mem_cons, not_or] at hs
    have hprefix : ¬ (mark sep eq n).isPrefixOf (c :: (s ++ t)) = true := by
      rw [List.isPrefixOf_iff_prefix, mark, List.cons_prefix_cons]
      exact fun h => hs.1 h.1
    rw [List.cons_append, occurrences, if_neg hprefix, ih hs.2, Nat.zero_add]

theorem occurrences_field (hne : eq ≠ sep) (hn : eq ∉ n) (hm : eq ∉ m) (hmsep : sep ∉ m) (v : List α) :
    occurrences (mark sep eq n) (field sep eq m v) = (if m = n then 1 else 0) + occurrences (mark sep eq n) v := by
  have hiff : (mark sep eq n).isPrefixOf (field sep eq m v) = true ↔ m = n := by
    rw [List.isPrefixOf_iff_prefix, mark, field, List.cons_prefix_cons, and_iff_right rfl]
    constructor
    · rintro ⟨z, hz⟩
      rw [List.append_assoc] at hz
      exact (split_first hn hm hz).1.symm
    · rintro rfl
      exact ⟨v, by simp⟩
  have hskip : m ++ eq :: v = (m ++ [eq]) ++ v := by simp
  have hsep : sep ∉ m ++ [eq] := by simp [hmsep, hne.symm]
  rw [field, occurrences, hskip, occurrences_skip hsep, ← hskip, ← field]
  simp only [hiff]

/-- **The fields of a text**: one begins at every field with the name, and where one begins in a value. -/
theorem occurrences_fields (hne : eq ≠ sep) (hnsep : sep ∉ n) (hn : eq ∉ n) {fs : List (List α × List α)}
    (hfs : ∀ f ∈ fs, sep ∉ f.1 ∧ eq ∉ f.1) :
    occurrences (mark sep eq n) (fs.flatMap fun f => field sep eq f.1 f.2) =
      (fs.map fun f => (if f.1 = n then 1 else 0) + occurrences (mark sep eq n) f.2).sum := by
  induction fs with
  | nil => rfl
  | cons f fs ih =>
    rw [List.forall_mem_cons] at hfs
    rw [List.flatMap_cons, List.map_cons, List.sum_cons, ← ih hfs.2]
    have hone := occurrences_field hne hn hfs.1.2 hfs.1.1 f.2
    cases fs with
    | nil => simp [hone, occurrences]
    | cons g gs =>
      rw [List.flatMap_cons, ← hone]
      exact occurrences_append (by simp [mark, hnsep, hne.symm]) _ _

end NamedFields
