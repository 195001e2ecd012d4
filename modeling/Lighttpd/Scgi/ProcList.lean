import Mathlib.Data.List.Sort
import Lighttpd.Scgi.Account

/-!
# The list of processes of a SCGI backend is well formed

`scgi_proclist_sort_up` and `scgi_proclist_sort_down` move one process. `sortUp_spec` and `sortDown_spec` say where to, for
any loads: it is inserted in order among those to its right, or to its left. So the list stays a doubly linked list of
the same processes, and it is sorted afterwards if it was sorted apart from this process.
-/

namespace Lighttpd
namespace Scgi
namespace Account

open Backend DoublyLinked

variable {κ : Type} [DecidableEq κ] {h h' : ExtensionHost κ} {x y : κ} {l l₁ l₂ : List κ}

def ExtensionHost.Le (h : ExtensionHost κ) (a b : κ) : Prop := size (h.procs a).load ≤ size (h.procs b).load

instance (h : ExtensionHost κ) : DecidableRel h.Le := fun _ _ => inferInstanceAs (Decidable (_ ≤ _))

instance (h : ExtensionHost κ) : Std.Total h.Le := ⟨fun _ _ => Int.le_total _ _⟩

instance (h : ExtensionHost κ) : IsTrans κ h.Le := ⟨fun _ _ _ => Int.le_trans⟩

/-- The processes `l`, each once, are the list of the host. -/
structure ExtensionHost.Lists (h : ExtensionHost κ) (l : List κ) : Prop where
  list : IsList h.links l
  numProcs : h.numProcs = l.length

omit [DecidableEq κ] in
theorem orderedInsert_eq (h : ExtensionHost κ) (x : κ) (l : List κ) :
    l.orderedInsert h.Le x = l.takeWhile (h.lighter · x) ++ x :: l.dropWhile (h.lighter · x) := by
  have hlighter : (fun b => decide ¬ h.Le x b) = (h.lighter · x) := by
    funext b
    exact decide_eq_decide.mpr Int.not_le
  rw [List.orderedInsert_eq_take_drop, hlighter]

/-! ## `scgi_proclist_sort_up` -/

omit [DecidableEq κ] in
theorem walkUp_eq {fuel : Nat} {pre : List κ} (hlist : IsList h.links (pre ++ y :: l)) (hfuel : l.length < fuel) :
    walkUp h x fuel y = some ((l.takeWhile (h.lighter · x)).getLast?.getD y) := by
  induction l generalizing pre y fuel with
  | nil =>
    obtain ⟨fuel, rfl⟩ := Nat.exists_eq_succ_of_ne_zero (Nat.ne_of_gt (Nat.zero_lt_of_lt hfuel))
    have hnext := hlist.at.2.1
    rw [walkUp, hnext]
    rfl
  | cons q l ih =>
    obtain ⟨fuel, rfl⟩ := Nat.exists_eq_succ_of_ne_zero (Nat.ne_of_gt (Nat.zero_lt_of_lt hfuel))
    have hnext := hlist.at.2.1
    rw [walkUp, hnext, List.head?_cons]
    dsimp only
    rw [List.takeWhile_cons]
    split
    · rw [List.append_cons] at hlist
      rw [ih hlist (Nat.lt_of_succ_lt_succ hfuel), List.getLast?_cons]
      rfl
    · rfl

/-- What `dropFirst` changes, unlinking sets again. -/
theorem dropFirst_unlink (hlist : IsList h.links (l₁ ++ x :: l₂)) :
    ((dropFirst h.links x).unlink x).prev = (h.links.unlink x).prev ∧
      ((dropFirst h.links x).unlink x).next = (h.links.unlink x).next ∧
      ((dropFirst h.links x).unlink x).first = (l₁ ++ l₂).head? := by
  obtain ⟨hprev, hnext, -, -⟩ := hlist.at
  obtain ⟨-, -, hx₁, hx₂, -⟩ := hlist.nodups
  have hfirst := hlist.first
  cases l₁ with
  | cons z l₁ =>
    have hne : h.links.first ≠ some x := by
      rw [hfirst]
      rintro ⟨⟩
      exact hx₁ List.mem_cons_self
    unfold dropFirst
    rw [if_neg hne, unlink_first, hfirst]
    exact ⟨rfl, rfl, rfl⟩
  | nil =>
    have hhead : h.links.next x ≠ some x := by
      rw [hnext]
      exact head?_ne hx₂
    have hdrop : dropFirst h.links x = { h.links.linkPrev (h.links.next x) none with first := h.links.next x } :=
      if_pos hfirst
    have hdropPrev : (dropFirst h.links x).prev x = none := by
      rw [hdrop, ← hprev.trans List.getLast?_nil]
      exact Links.linkPrev_prev_of_ne hhead _
    have hdropNext : (dropFirst h.links x).next = h.links.next := by
      rw [hdrop]
      exact Links.linkPrev_next ..
    rw [unlink_of_prev_none hdropPrev, unlink_of_prev_none (hprev.trans List.getLast?_nil), hdropNext, hdrop]
    refine ⟨?_, ?_, ?_⟩
    · cases h.links.next x with
      | none => rfl
      | some y => exact Function.update_idem ..
    · simp
    · simpa using hnext

/-- **`scgi_proclist_sort_up` inserts the process among those to its right.** -/
theorem sortUp_spec (hlists : h.Lists (l₁ ++ x :: l₂)) :
    ∃ links, scgiProclistSortUp h x = some { h with links := links } ∧
      IsList links (l₁ ++ l₂.orderedInsert h.Le x) := by
  have hlist := hlists.list
  obtain ⟨hl₁, hl₂, hx₁, hx₂, hdisj⟩ := hlist.nodups
  have hwalk : walkUp h x h.numProcs x = some ((l₂.takeWhile (h.lighter · x)).getLast?.getD x) := by
    apply walkUp_eq hlist
    rw [hlists.numProcs]
    simp only [List.length_append, List.length_cons]
    omega
  rw [orderedInsert_eq]
  have hsplit : l₂.takeWhile (h.lighter · x) ++ l₂.dropWhile (h.lighter · x) = l₂ := List.takeWhile_append_dropWhile
  unfold scgiProclistSortUp
  split
  · rename_i hone
    obtain rfl : l₂ = [] := by
      rw [hlist.at.2.1] at hone
      exact List.head?_eq_none_iff.mp hone.2
    exact ⟨h.links, rfl, hlist⟩
  · rcases List.eq_nil_or_concat (l₂.takeWhile (h.lighter · x)) with htake | ⟨t, y, htake⟩
    · rw [htake] at hwalk hsplit ⊢
      refine ⟨h.links, ?_, ?_⟩
      · rw [hwalk]
        exact if_pos rfl
      · rw [List.nil_append] at hsplit ⊢
        rw [hsplit]
        exact hlist
    · rw [List.concat_eq_append] at htake
      generalize l₂.dropWhile (h.lighter · x) = r at *
      rw [htake] at hwalk hsplit ⊢
      subst hsplit
      rw [List.getLast?_concat, Option.getD_some] at hwalk
      have hyx : y ≠ x := by
        rintro rfl
        exact hx₂ (by simp)
      obtain ⟨hprev, hnext, hfirst⟩ := dropFirst_unlink hlist
      refine ⟨((dropFirst h.links x).unlink x).insertAfter y x, ?_, ?_, ?_, ?_⟩
      · rw [hwalk]
        exact if_neg hyx
      · simp only [Links.insertAfter, Links.linkNext_first, Links.linkPrev_first, hfirst]
        simp [List.head?_append]
      · have hseg : Seg ((dropFirst h.links x).unlink x) none ((l₁ ++ t) ++ y :: r) none := by
          apply Seg.congr (d := h.links.unlink x)
          · have hunlink := hlist.unlink
            simpa using hunlink
          · intro z _
            rw [hprev, hnext]
            exact ⟨rfl, rfl⟩
        have hnodup : ((l₁ ++ t) ++ y :: r).Nodup := by
          have hn := hlist.nodup.sublist (List.Sublist.append_left (List.sublist_cons_self x _) l₁)
          simpa using hn
        have hnot : x ∉ (l₁ ++ t) ++ y :: r := by
          simp only [List.mem_append, List.mem_cons, List.not_mem_nil, or_false, not_or] at hx₂ ⊢
          exact ⟨⟨hx₁, hx₂.1.1⟩, hx₂.1.2, hx₂.2⟩
        have hins := hseg.insertAfter hnodup hnot
        simpa using hins
      · have hperm : (l₁ ++ (t ++ [y] ++ x :: r)).Perm (l₁ ++ x :: (t ++ [y] ++ r)) :=
          List.Perm.append_left l₁ List.perm_middle
        exact hperm.nodup_iff.mpr hlist.nodup

/-! ## `scgi_proclist_sort_down` -/

/-- The walk stops at the first process that does not have less load, or at the process itself. -/
theorem walkDown_eq {fuel : Nat} {pre s : List κ} (hlist : IsList h.links (pre ++ (s ++ x :: l)))
    (hfuel : s.length < fuel) :
    walkDown h x fuel (s.head?.getD x) = some ((s.dropWhile (h.lighter · x)).head?.getD x) := by
  induction s generalizing pre fuel with
  | nil =>
    obtain ⟨fuel, rfl⟩ := Nat.exists_eq_succ_of_ne_zero (Nat.ne_of_gt (Nat.zero_lt_of_lt hfuel))
    rw [walkDown, if_neg]
    · rfl
    · intro hne
      exact hne.1 rfl
  | cons q s ih =>
    obtain ⟨fuel, rfl⟩ := Nat.exists_eq_succ_of_ne_zero (Nat.ne_of_gt (Nat.zero_lt_of_lt hfuel))
    have hqx : q ≠ x := by
      rintro rfl
      obtain ⟨-, -, -, hq, -⟩ := hlist.nodups
      exact hq (by simp)
    have hnext : h.links.next q = some (s.head?.getD x) := by
      rw [hlist.at.2.1]
      cases s <;> rfl
    rw [List.head?_cons, Option.getD_some, walkDown, List.dropWhile_cons, hnext]
    by_cases hlighter : h.lighter q x = true
    · rw [if_pos ⟨hqx, hlighter⟩, if_pos hlighter]
      rw [List.cons_append, List.append_cons] at hlist
      exact ih hlist (Nat.lt_of_succ_lt_succ hfuel)
    · rw [if_neg (fun hne => hlighter hne.2), if_neg hlighter]
      rfl

/-- **`scgi_proclist_sort_down` inserts the process among those to its left.** -/
theorem sortDown_spec (hlists : h.Lists (l₁ ++ x :: l₂)) :
    ∃ links, scgiProclistSortDown h x = some { h with links := links } ∧
      IsList links (l₁.orderedInsert h.Le x ++ l₂) := by
  have hlist := hlists.list
  obtain ⟨hl₁, hl₂, hx₁, hx₂, hdisj⟩ := hlist.nodups
  have hwalk : walkDown h x h.numProcs (l₁.head?.getD x) = some ((l₁.dropWhile (h.lighter · x)).head?.getD x) := by
    have hwhole : IsList h.links ([] ++ (l₁ ++ x :: l₂)) := hlist
    apply walkDown_eq hwhole
    rw [hlists.numProcs]
    simp only [List.length_append, List.length_cons]
    omega
  have hfirst : h.links.first = some (l₁.head?.getD x) := by
    rw [hlist.first]
    cases l₁ <;> rfl
  rw [orderedInsert_eq]
  have hsplit : l₁.takeWhile (h.lighter · x) ++ l₁.dropWhile (h.lighter · x) = l₁ := List.takeWhile_append_dropWhile
  unfold scgiProclistSortDown
  split
  · rename_i hone
    obtain rfl : l₁ = [] := by
      cases l₁ with
      | nil => rfl
      | cons z l₁ =>
        rw [hfirst] at hone
        have hzx : z = x := Option.some.inj hone.1
        rw [hzx] at hx₁
        exact absurd List.mem_cons_self hx₁
    exact ⟨h.links, rfl, hlist⟩
  · rw [hfirst]
    cases hdrop : l₁.dropWhile (h.lighter · x) with
    | nil =>
      rw [hdrop] at hwalk hsplit
      rw [List.append_nil] at hsplit
      refine ⟨h.links, ?_, ?_⟩
      · dsimp only [bind, Option.bind]
        rw [hwalk]
        exact if_pos rfl
      · rw [hsplit, List.append_assoc]
        exact hlist
    | cons y r =>
      generalize l₁.takeWhile (h.lighter · x) = t at *
      rw [hdrop] at hwalk hsplit
      subst hsplit
      rw [List.head?_cons, Option.getD_some] at hwalk
      have hyx : y ≠ x := by
        rintro rfl
        exact hx₁ (by simp)
      have hhead : (t ++ y :: r).head?.getD x ≠ x := by
        cases t with
        | nil => exact hyx
        | cons z t =>
          intro hz
          have hzx : z = x := hz
          exact hx₁ (by simp [hzx])
      have hseg : Seg (h.links.unlink x) none (t ++ y :: (r ++ l₂)) none := by
        have hunlink := hlist.unlink
        simpa using hunlink
      have hnodup : (t ++ y :: (r ++ l₂)).Nodup := by
        have hn := hlist.nodup.sublist (List.Sublist.append_left (List.sublist_cons_self x _) (t ++ y :: r))
        simpa using hn
      have hnot : x ∉ t ++ y :: (r ++ l₂) := by
        simp only [List.mem_append, List.mem_cons, not_or] at hx₁ hx₂ ⊢
        exact ⟨hx₁.1, hx₁.2.1, hx₁.2.2, hx₂⟩
      have hins := hseg.insertBefore hnodup hnot
      have hprev : ((h.links.unlink x).insertBefore y x).prev x = t.getLast? := by
        have hat := (seg_append.mp hins).2.1
        simpa using hat
      refine ⟨raiseFirst ((h.links.unlink x).insertBefore y x) x, ?_, ?_, ?_, ?_⟩
      · dsimp only [bind, Option.bind]
        rw [hwalk]
        dsimp only
        rw [if_neg hyx, if_neg]
        · rfl
        · rintro heq
          exact hhead (Option.some.inj heq)
      · unfold raiseFirst
        rw [hprev]
        cases t with
        | nil => rfl
        | cons z t =>
          rw [if_neg (by simp)]
          simp only [Links.insertBefore, Links.linkNext_first, Links.linkPrev_first, unlink_first, hfirst]
          rfl
      · apply Seg.congr (d := (h.links.unlink x).insertBefore y x)
        · simpa using hins
        · intro z _
          unfold raiseFirst
          split <;> exact ⟨rfl, rfl⟩
      · have hperm : (t ++ x :: y :: r ++ l₂).Perm (t ++ y :: r ++ x :: l₂) := by
          rw [List.append_assoc, List.append_assoc]
          apply List.Perm.append_left
          have hmiddle : (y :: r ++ x :: l₂).Perm (x :: (y :: r ++ l₂)) := List.perm_middle
          exact hmiddle.symm
        exact hperm.nodup_iff.mpr hlist.nodup

end Account
end Scgi
end Lighttpd
