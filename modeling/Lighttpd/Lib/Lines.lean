import Mathlib.Data.List.Infix

/-!
# Lines

A line ends at the first occurrence of two given symbols, `a` and `b`. `lines a b s` are the lines of `s`; what stands
behind the last of them is no line.
-/

namespace Lines

variable {α : Type} [DecidableEq α]

/-- The lines of `s`, when `pre` has been read of the first one. -/
def linesFrom (a b : α) (pre : List α) : List α → List (List α)
  | [] => []
  | c :: s =>
    if c = a then
      match s with
      | [] => []
      | d :: s' => if d = b then pre :: linesFrom a b [] s' else linesFrom a b (pre ++ [c]) (d :: s')
    else linesFrom a b (pre ++ [c]) s

/-- **The lines of `s`.** -/
def lines (a b : α) (s : List α) : List (List α) := linesFrom a b [] s

/-- Any symbol but `a` belongs to the line. -/
theorem linesFrom_cons {a b c : α} (pre s : List α) (h : c ≠ a) :
    linesFrom a b pre (c :: s) = linesFrom a b (pre ++ [c]) s := by
  rw [linesFrom.eq_def]
  exact if_neg h

/-- An `a` without a `b` behind it belongs to the line. -/
theorem linesFrom_cons_cons {a b d : α} (pre s : List α) (h : d ≠ b) :
    linesFrom a b pre (a :: d :: s) = linesFrom a b (pre ++ [a]) (d :: s) := by
  rw [linesFrom.eq_def]
  simp only [if_true, h, if_false]

theorem linesFrom_end (a b : α) (pre s : List α) : linesFrom a b pre (a :: b :: s) = pre :: lines a b s := by
  rw [linesFrom.eq_def]
  simp only [if_true, lines]

/-- What has been read is part of the first line, and the other lines are those of what follows it. -/
theorem linesFrom_eq_cons {a b : α} {pre s line : List α} {more : List (List α)}
    (h : linesFrom a b pre s = line :: more) : ∃ t rest, line = pre ++ t ∧ more = lines a b rest := by
  fun_induction linesFrom a b pre s with
  | case1 pre => cases h
  | case2 pre => cases h
  | case3 pre s' => exact ⟨[], s', by simp [(List.cons.inj h).1], (List.cons.inj h).2.symm⟩
  | case4 pre d s' hd ih =>
    obtain ⟨t, rest, hline, hmore⟩ := ih h
    exact ⟨a :: t, rest, by simp [hline], hmore⟩
  | case5 pre c s hc ih =>
    obtain ⟨t, rest, hline, hmore⟩ := ih h
    exact ⟨c :: t, rest, by simp [hline], hmore⟩

end Lines
