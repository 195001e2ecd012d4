import Mathlib.Data.Set.BooleanAlgebra
import Mathlib.Data.Set.Insert
import Mathlib.Order.CompletePartialOrder
import Mathlib.Data.List.Nodup
import Mathlib.Data.List.Perm.Subperm

/-!
# Linked lists in a heap

Nodes live in a heap under addresses and are linked by `next`; a freed or never allocated address has no node, and
reading or writing there fails. `IsList h first cells` says that the addresses of `cells` with their values form the
linked list that starts at `first` and ends with a null link. `IsList.splice` is the one lemma about a write to a
list: it covers a new value, a new link and an unlinked node.

`Step h o h' o'` is the frame condition of an operation that owns the addresses `o` and afterwards the addresses `o'`:
it leaves every other node alone and takes only new addresses into its possession.
-/

namespace Linked

abbrev Ptr := Nat

/-- A value and the link to the next node. -/
structure Node (α : Type) where
  val : α
  next : Option Ptr

/-- The nodes by address; no address from `fresh` on has been given out. -/
structure Heap (α : Type) where
  node : Ptr → Option (Node α)
  fresh : Ptr
  node_fresh : ∀ p, fresh ≤ p → node p = none

variable {α : Type}

namespace Heap

def empty : Heap α := ⟨fun _ => none, 0, fun _ _ => rfl⟩

def alloc (h : Heap α) (n : Node α) : Ptr × Heap α :=
  (h.fresh, {
    node := fun r => if r = h.fresh then some n else h.node r
    fresh := h.fresh + 1
    node_fresh := fun p hp => by
      rw [if_neg (Nat.ne_of_gt hp)]
      exact h.node_fresh p (Nat.le_of_succ_le hp) })

def modify (h : Heap α) (p : Ptr) (f : Node α → Node α) : Option (Heap α) :=
  match hn : h.node p with
  | none => none
  | some n => some {
      node := fun r => if r = p then some (f n) else h.node r
      fresh := h.fresh
      node_fresh := fun r hr => by
        rw [if_neg, h.node_fresh r hr]
        rintro rfl
        rw [h.node_fresh r hr] at hn
        cases hn }

def free (h : Heap α) (p : Ptr) : Option (Heap α) :=
  match h.node p with
  | none => none
  | some _ => some {
      node := fun r => if r = p then none else h.node r
      fresh := h.fresh
      node_fresh := fun r hr => by
        split
        · rfl
        · exact h.node_fresh r hr }

theorem lt_fresh {h : Heap α} {p : Ptr} {n : Node α} (hn : h.node p = some n) : p < h.fresh := by
  by_contra hp
  rw [h.node_fresh p (Nat.le_of_not_lt hp)] at hn
  cases hn

end Heap

structure Put (h h' : Heap α) (p : Ptr) (n : Node α) : Prop where
  here : h'.node p = some n
  other : ∀ r, r ≠ p → h'.node r = h.node r
  fresh : h.fresh ≤ h'.fresh

variable {h : Heap α} {p : Ptr} {n : Node α}

theorem Put.refl (hn : h.node p = some n) : Put h h p n :=
  ⟨hn, fun _ _ => rfl, Nat.le_refl _⟩

theorem alloc_put (h : Heap α) (n : Node α) : Put h (h.alloc n).2 (h.alloc n).1 n :=
  ⟨if_pos rfl, fun _ hr => if_neg hr, Nat.le_succ _⟩

theorem modify_put (hn : h.node p = some n) (f : Node α → Node α) :
    ∃ h', h.modify p f = some h' ∧ Put h h' p (f n) := by
  unfold Heap.modify
  split
  · rename_i hp
    rw [hn] at hp
    cases hp
  · rename_i m hp
    obtain rfl : n = m := Option.some.inj (hn.symm.trans hp)
    exact ⟨_, rfl, if_pos rfl, fun _ hr => if_neg hr, Nat.le_refl _⟩

theorem free_spec (hn : h.node p = some n) :
    ∃ h', h.free p = some h' ∧ (∀ r, r ≠ p → h'.node r = h.node r) ∧ h.fresh ≤ h'.fresh := by
  unfold Heap.free
  rw [hn]
  exact ⟨_, rfl, fun _ hr => if_neg hr, Nat.le_refl _⟩

/-! ## Lists -/

/-- **The linked list that starts at `first`** has the given addresses and values. -/
inductive IsList (h : Heap α) : Option Ptr → List (Ptr × α) → Prop
  | nil : IsList h none []
  | cons {p : Ptr} {v : α} {n : Option Ptr} {cells : List (Ptr × α)} (hn : h.node p = some ⟨v, n⟩)
      (hl : IsList h n cells) : IsList h (some p) ((p, v) :: cells)

abbrev addrs (cells : List (Ptr × α)) : List Ptr := cells.map Prod.fst

@[simp] theorem addrs_cons (c : Ptr × α) (cells : List (Ptr × α)) : addrs (c :: cells) = c.1 :: addrs cells := rfl

@[simp] theorem addrs_append (xs ys : List (Ptr × α)) : addrs (xs ++ ys) = addrs xs ++ addrs ys := List.map_append

abbrev vals (cells : List (Ptr × α)) : List α := cells.map Prod.snd

namespace IsList

variable {h' : Heap α} {first : Option Ptr}

theorem frame : ∀ {first : Option Ptr} {cells : List (Ptr × α)}, IsList h first cells →
    (∀ p ∈ addrs cells, h'.node p = h.node p) → IsList h' first cells
  | _, [], .nil, _ => .nil
  | _, (p, _) :: _, .cons hn hl, he =>
    .cons ((he p List.mem_cons_self).trans hn) (hl.frame fun q hq => he q (List.mem_cons_of_mem p hq))

variable {cells : List (Ptr × α)}

theorem first_eq_none (hl : IsList h first cells) : first = none ↔ cells = [] := by
  cases hl with
  | nil => exact ⟨fun _ => rfl, fun _ => rfl⟩
  | cons hn hl => exact ⟨nofun, nofun⟩

theorem cons_iff {v : α} :
    IsList h first ((p, v) :: cells) ↔ first = some p ∧ ∃ n, h.node p = some ⟨v, n⟩ ∧ IsList h n cells := by
  constructor
  · rintro (_ | ⟨hn, hl⟩)
    exact ⟨rfl, _, hn, hl⟩
  · rintro ⟨rfl, n, hn, hl⟩
    exact .cons hn hl

theorem node {xs ys : List (Ptr × α)} {v : α} (hl : IsList h first (xs ++ (p, v) :: ys)) :
    ∃ n, h.node p = some ⟨v, n⟩ ∧ IsList h n ys := by
  induction xs generalizing first with
  | nil => exact (Iff.mp cons_iff hl).2
  | cons x xs ih =>
    obtain ⟨-, n, -, hrest⟩ := Iff.mp cons_iff hl
    exact ih hrest

theorem node_of_mem (hl : IsList h first cells) (hp : p ∈ addrs cells) :
    ∃ v n, (p, v) ∈ cells ∧ h.node p = some ⟨v, n⟩ := by
  obtain ⟨⟨q, v⟩, hc, rfl⟩ := List.mem_map.mp hp
  obtain ⟨xs, ys, rfl⟩ := List.append_of_mem hc
  obtain ⟨n, hn, -⟩ := hl.node
  exact ⟨v, n, hc, hn⟩

theorem lt_fresh (hl : IsList h first cells) (hp : p ∈ addrs cells) : p < h.fresh := by
  obtain ⟨v, n, -, hn⟩ := hl.node_of_mem hp
  exact Heap.lt_fresh hn

/-- **A write to one node of a list**: its value changes to `v'`, and the list `zs` follows it. -/
theorem splice : ∀ {first : Option Ptr} {xs ys zs : List (Ptr × α)} {p : Ptr} {v v' : α} {n' : Option Ptr},
    IsList h first (xs ++ (p, v) :: ys) → Put h h' p ⟨v', n'⟩ → IsList h n' zs → p ∉ addrs xs → p ∉ addrs zs →
    IsList h' first (xs ++ (p, v') :: zs)
  | _, [], _, _, _, _, _, _, .cons _ _, hput, hzs, _, hp =>
    .cons hput.here (hzs.frame fun _ hq => hput.other _ fun he => hp (he ▸ hq))
  | _, (q, u) :: xs, _, _, p, _, _, _, .cons hn hl, hput, hzs, hpx, hp => by
    rw [addrs_cons, List.mem_cons, not_or] at hpx
    exact .cons ((hput.other q (Ne.symm hpx.1)).trans hn) (splice hl hput hzs hpx.2 hp)

theorem put_val {xs ys : List (Ptr × α)} {v v' : α} {n : Option Ptr} (hl : IsList h first (xs ++ (p, v) :: ys))
    (hnode : h.node p = some ⟨v, n⟩) (hput : Put h h' p ⟨v', n⟩) (hnd : (addrs (xs ++ (p, v) :: ys)).Nodup) :
    IsList h' first (xs ++ (p, v') :: ys) := by
  obtain ⟨n', hn', hys⟩ := hl.node
  rw [hnode] at hn'
  obtain rfl : n = n' := congrArg Node.next (Option.some.inj hn')
  rw [addrs_append, addrs_cons, List.nodup_middle, List.nodup_cons, List.mem_append, not_or] at hnd
  exact hl.splice hput hys hnd.1.1 hnd.1.2

end IsList

/-- The nodes that are reached from `first`. -/
inductive Reach (h : Heap α) : Option Ptr → Ptr → Prop
  | here {p : Ptr} : Reach h (some p) p
  | next {p q : Ptr} {v : α} {n : Option Ptr} (hn : h.node p = some ⟨v, n⟩) (hr : Reach h n q) : Reach h (some p) q

/-- **The nodes of a list are the nodes reached from its start.** -/
theorem IsList.reach_iff {first : Option Ptr} {cells : List (Ptr × α)} (hl : IsList h first cells) {q : Ptr} :
    Reach h first q ↔ q ∈ addrs cells := by
  induction hl with
  | nil => exact ⟨nofun, nofun⟩
  | cons hn hl ih =>
    rename_i p v n cells
    rw [addrs_cons, List.mem_cons, ← ih]
    constructor
    · intro hr
      cases hr with
      | here => exact .inl rfl
      | next hn' hr =>
        rw [hn] at hn'
        cases Option.some.inj hn'
        exact .inr hr
    · rintro (rfl | hr)
      · exact .here
      · exact .next hn hr

theorem IsList.length_le {first : Option Ptr} {cells : List (Ptr × α)} (hl : IsList h first cells)
    (hnd : (addrs cells).Nodup) : cells.length ≤ h.fresh := by
  have hsub : addrs cells ⊆ List.range h.fresh := fun p hp => List.mem_range.mpr (hl.lt_fresh hp)
  have := (List.subperm_of_subset hnd hsub).length_le
  rwa [List.length_map, List.length_range] at this

/-! ## Frames -/

/-- **An operation that owns `o` before and `o'` after it** leaves the other nodes alone. -/
structure Step (h : Heap α) (o : Set Ptr) (h' : Heap α) (o' : Set Ptr) : Prop where
  frame : ∀ r, r ∉ o → r < h.fresh → h'.node r = h.node r
  owned : ∀ r, r ∈ o' → r ∈ o ∨ h.fresh ≤ r
  fresh : h.fresh ≤ h'.fresh

namespace Step

variable {h' h'' : Heap α} {o o' o'' : Set Ptr}

theorem refl (h : Heap α) (o : Set Ptr) : Step h o h o := ⟨fun _ _ _ => rfl, fun _ => .inl, Nat.le_refl _⟩

theorem trans (hs : Step h o h' o') (hs' : Step h' o' h'' o'') : Step h o h'' o'' where
  frame := fun r hr hlt => by
    have hr' : r ∉ o' := fun hm => (hs.owned r hm).elim hr (Nat.not_le_of_lt hlt)
    rw [hs'.frame r hr' (Nat.lt_of_lt_of_le hlt hs.fresh), hs.frame r hr hlt]
  owned := fun r hr => by
    rcases hs'.owned r hr with hm | hge
    · exact hs.owned r hm
    · exact .inr (Nat.le_trans hs.fresh hge)
  fresh := Nat.le_trans hs.fresh hs'.fresh

theorem weaken (hs : Step h o h' o') {p p' : Set Ptr} (hp : o ⊆ p) (hp' : p' ⊆ o') : Step h p h' p' where
  frame := fun r hr hlt => hs.frame r (fun hm => hr (hp hm)) hlt
  owned := fun r hr => (hs.owned r (hp' hr)).imp_left fun hm => hp hm
  fresh := hs.fresh

theorem union (hs : Step h o h' o') (p : Set Ptr) : Step h (o ∪ p) h' (o' ∪ p) where
  frame := fun r hr hlt => hs.frame r (fun hm => hr (.inl hm)) hlt
  owned := fun r hr => by
    rcases hr with hm | hm
    · exact (hs.owned r hm).imp_left .inl
    · exact .inl (.inr hm)
  fresh := hs.fresh

theorem of_put {p : Ptr} {n : Node α} (hput : Put h h' p n) (hp : p ∈ o) : Step h o h' o where
  frame := fun r hr _ => hput.other r fun he => hr (he ▸ hp)
  owned := fun _ => .inl
  fresh := hput.fresh

theorem of_alloc (h : Heap α) (n : Node α) (o : Set Ptr) : Step h o (h.alloc n).2 (insert (h.alloc n).1 o) where
  frame := fun r _ hlt => (alloc_put h n).other r (Nat.ne_of_lt hlt)
  owned := fun r hr => by
    rcases hr with rfl | hr
    · exact .inr (Nat.le_refl _)
    · exact .inl hr
  fresh := (alloc_put h n).fresh

/-- Addresses in use that are not owned stay apart from what is owned afterwards. -/
theorem disjoint (hs : Step h o h' o') {p : Set Ptr} (hd : Disjoint o p) (hp : ∀ r ∈ p, r < h.fresh) :
    Disjoint o' p := by
  rw [Set.disjoint_left] at hd ⊢
  intro r hr hrp
  rcases hs.owned r hr with hm | hge
  · exact hd hm hrp
  · exact absurd hge (Nat.not_le_of_lt (hp r hrp))

end Step

end Linked
