import Mathlib.Data.List.Basic

/-!
# Runs of a system

A system takes steps that may not be possible. `run` takes one after another, `Meets` says that each of them is taken
where a condition holds, and `run_keeps` is the induction over a run. `count` counts the steps of some kind;
`count_le` bounds them by a budget that other steps may refill.
-/

namespace Run

variable {σ ο : Type*} {step : σ → ο → Option σ} {ok ok' : σ → ο → Prop} {I : σ → Prop} {s s' : σ} {ops ops' : List ο}

def run (step : σ → ο → Option σ) (s : σ) (ops : List ο) : Option σ := ops.foldlM step s

/-- **Every step of the run is taken where `ok` holds.** -/
def Meets (step : σ → ο → Option σ) (ok : σ → ο → Prop) : σ → List ο → Prop
  | _, [] => True
  | s, op :: ops => ok s op ∧ ∀ s', step s op = some s' → Meets step ok s' ops

theorem run_cons {op : ο} : run step s (op :: ops) = (step s op).bind fun s => run step s ops := by
  unfold run
  rw [List.foldlM_cons]
  rfl

theorem run_append : run step s (ops ++ ops') = (run step s ops).bind fun s => run step s ops' := by
  unfold run
  rw [List.foldlM_append]
  rfl

/-- **What every step keeps, every run keeps.** -/
theorem run_keeps (hstep : ∀ s op s', I s → ok s op → step s op = some s' → I s') (h : I s)
    (hok : Meets step ok s ops) (hrun : run step s ops = some s') : I s' := by
  induction ops generalizing s with
  | nil =>
    cases hrun
    exact h
  | cons op ops ih =>
    rw [run_cons] at hrun
    obtain ⟨s₁, hop, hrun⟩ := Option.bind_eq_some_iff.mp hrun
    exact ih (hstep s op s₁ h hok.1 hop) (hok.2 s₁ hop) hrun

theorem meets_of_forall (h : ∀ s op, ok s op) (s : σ) (ops : List ο) : Meets step ok s ops := by
  induction ops generalizing s with
  | nil => exact trivial
  | cons op ops ih => exact ⟨h s op, fun s' _ => ih s'⟩

theorem Meets.and (h : Meets step ok s ops) (h' : Meets step ok' s ops) : Meets step (fun s op => ok s op ∧ ok' s op) s ops := by
  induction ops generalizing s with
  | nil => exact trivial
  | cons op ops ih => exact ⟨⟨h.1, h'.1⟩, fun s' hop => ih (h.2 s' hop) (h'.2 s' hop)⟩

theorem meets_of_mem {P : ο → Prop} (h : ∀ op ∈ ops, P op) (s : σ) : Meets step (fun _ op => P op) s ops := by
  induction ops generalizing s with
  | nil => exact trivial
  | cons op ops ih =>
    rw [List.forall_mem_cons] at h
    exact ⟨h.1, fun s' _ => ih h.2 s'⟩

theorem meets_iff : Meets step ok s ops ↔
    ∀ ops₁ op ops₂ s₁, ops = ops₁ ++ op :: ops₂ → run step s ops₁ = some s₁ → ok s₁ op := by
  induction ops generalizing s with
  | nil => exact ⟨fun _ ops₁ op ops₂ s₁ heq => absurd heq (by simp), fun _ => trivial⟩
  | cons op ops ih =>
    refine ⟨fun h ops₁ op' ops₂ s₁ heq hrun => ?_, fun h => ⟨h [] op ops s rfl rfl, fun s' hop => ih.mpr ?_⟩⟩
    · cases ops₁ with
      | nil =>
        cases heq
        cases hrun
        exact h.1
      | cons op₁ ops₁ =>
        cases heq
        rw [run_cons] at hrun
        obtain ⟨s', hop, hrun⟩ := Option.bind_eq_some_iff.mp hrun
        exact ih.mp (h.2 s' hop) ops₁ op' ops₂ s₁ rfl hrun
    · intro ops₁ op' ops₂ s₁ heq hrun
      apply h (op :: ops₁) op' ops₂ s₁ (by rw [heq, List.cons_append])
      rw [run_cons, hop]
      exact hrun

theorem Meets.append_left (h : Meets step ok s (ops ++ ops')) : Meets step ok s ops := by
  refine Iff.mpr meets_iff fun ops₁ op ops₂ s₁ heq => Iff.mp meets_iff h ops₁ op (ops₂ ++ ops') s₁ ?_
  rw [heq, List.append_assoc, List.cons_append]

/-! ## Counting steps -/

variable {p q : σ → ο → Bool} {n : Nat}

/-- The number of steps of a run that `p` holds of. -/
def count (step : σ → ο → Option σ) (p : σ → ο → Bool) : σ → List ο → Nat
  | _, [] => 0
  | s, op :: ops =>
    match step s op with
    | some s' => (p s op).toNat + count step p s' ops
    | none => 0

theorem count_cons {op : ο} (h : step s op = some s') : count step p s (op :: ops) = (p s op).toNat + count step p s' ops := by
  rw [count, h]

theorem count_cons_none {op : ο} (h : step s op = none) : count step p s (op :: ops) = 0 := by
  rw [count, h]

/-- **Steps that use up a budget**: every step of the kind `p` takes one unit of it, and only those of the kind `q` add
to it, not more than `n`. -/
theorem count_le (budget : σ → Nat) (hstep : ∀ s op s', ok s op → step s op = some s' →
    (p s op).toNat + budget s' ≤ budget s + n * (q s op).toNat) (hok : Meets step ok s ops) :
    count step p s ops ≤ budget s + n * count step q s ops := by
  induction ops generalizing s with
  | nil => exact Nat.zero_le _
  | cons op ops ih =>
    cases hop : step s op with
    | none =>
      rw [count_cons_none hop]
      exact Nat.zero_le _
    | some s' =>
      have hone := hstep s op s' hok.1 hop
      have hrest := ih (hok.2 s' hop)
      rw [count_cons hop, count_cons hop, Nat.mul_add]
      omega

/-- Without steps of the kind `p`, every step is taken where `p` does not hold. -/
theorem meets_of_count_eq_zero (h : count step p s ops = 0) : Meets step (fun s op => step s op ≠ none → p s op = false) s ops := by
  induction ops generalizing s with
  | nil => exact trivial
  | cons op ops ih =>
    refine ⟨fun hne => ?_, fun s' hop => ?_⟩
    · obtain ⟨s', hop⟩ := Option.ne_none_iff_exists'.mp hne
      rw [count_cons hop] at h
      cases hp : p s op with
      | false => rfl
      | true =>
        rw [hp, Bool.toNat_true] at h
        omega
    · rw [count_cons hop] at h
      exact ih (by omega)

end Run
