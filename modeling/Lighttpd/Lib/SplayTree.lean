import Mathlib.Order.Lattice
import Mathlib.Data.List.Basic
import Mathlib.Order.Defs.LinearOrder

/-!
# Top-down splay trees with sizes

A search walks down from the root and hangs what it leaves behind to the right of a left tree and to the left of a right
tree. At the end the two trees become the children of the node that it stops at. Every node has a field with the number
of nodes below it, which the walk keeps up to date.

`toList` are the entries of a tree in their order. What the operations do to a tree is said by what they do to this list.

- `splay_spec`: the search, for any key;
- `insert_spec`, `delete_spec`: insertion and deletion.
-/

namespace SplayTree

variable {κ ν : Type}

/-- A tree. The size of a node is a field, and not computed. -/
inductive Tree (κ ν : Type) where
  | nil
  | node (left : Tree κ ν) (key : κ) (size : Int) (data : ν) (right : Tree κ ν)
deriving DecidableEq

namespace Tree

def size : Tree κ ν → Int
  | nil => 0
  | node _ _ s _ _ => s

def toList : Tree κ ν → List (κ × ν)
  | nil => []
  | node l k _ d r => l.toList ++ (k, d) :: r.toList

/-- Every node has the number of nodes below it. -/
def Sized : Tree κ ν → Prop
  | nil => True
  | node l _ s _ r => l.Sized ∧ r.Sized ∧ s = l.toList.length + r.toList.length + 1

theorem Sized.size_eq {t : Tree κ ν} (h : t.Sized) : t.size = t.toList.length := by
  cases t with
  | nil => rfl
  | node l k s d r =>
    obtain ⟨-, -, hs⟩ := h
    simp [size, toList, hs]
    omega

theorem sized_node {l r : Tree κ ν} {k : κ} {d : ν} (hl : l.Sized) (hr : r.Sized) :
    (node l k (l.size + r.size + 1) d r).Sized := ⟨hl, hr, by rw [hl.size_eq, hr.size_eq]⟩

end Tree

open SplayTree.Tree

/-- What has been hung to the right of the left tree: the topmost first. -/
abbrev LeftSpine (κ ν : Type) := List (Tree κ ν × κ × ν)

/-- What has been hung to the left of the right tree: the topmost first. -/
abbrev RightSpine (κ ν : Type) := List (κ × ν × Tree κ ν)

/-- The left tree, with `t` at its lower end. The sizes go down from `n`. -/
def assembleLeft : LeftSpine κ ν → Int → Tree κ ν → Tree κ ν
  | [], _, t => t
  | (l, k, d) :: ls, n, t => node l k n d (assembleLeft ls (n - (1 + l.size)) t)

/-- The right tree, with `t` at its lower end. -/
def assembleRight : RightSpine κ ν → Int → Tree κ ν → Tree κ ν
  | [], _, t => t
  | (k, d, r) :: rs, n, t => node (assembleRight rs (n - (1 + r.size)) t) k n d r

/-- The walk stops at a node: the trees are put together. -/
def assemble (l : Tree κ ν) (k : κ) (d : ν) (r : Tree κ ν) (ls : LeftSpine κ ν) (rs : RightSpine κ ν)
    (lSize rSize : Int) : Tree κ ν :=
  let lSize := lSize + l.size
  let rSize := rSize + r.size
  node (assembleLeft ls lSize l) k (lSize + rSize + 1) d (assembleRight rs rSize r)

/-! ## The trees that are left behind -/

def leftEntries (ls : LeftSpine κ ν) : List (κ × ν) := ls.flatMap fun s => s.1.toList ++ [(s.2.1, s.2.2)]

def rightEntries (rs : RightSpine κ ν) : List (κ × ν) := rs.reverse.flatMap fun s => (s.1, s.2.1) :: s.2.2.toList

@[simp] theorem leftEntries_nil : leftEntries ([] : LeftSpine κ ν) = [] := rfl

@[simp] theorem leftEntries_cons (s : Tree κ ν × κ × ν) (ls : LeftSpine κ ν) :
    leftEntries (s :: ls) = s.1.toList ++ (s.2.1, s.2.2) :: leftEntries ls := by
  simp [leftEntries]

@[simp] theorem leftEntries_append (ls : LeftSpine κ ν) (s : Tree κ ν × κ × ν) :
    leftEntries (ls ++ [s]) = leftEntries ls ++ (s.1.toList ++ [(s.2.1, s.2.2)]) := by
  simp [leftEntries]

@[simp] theorem rightEntries_nil : rightEntries ([] : RightSpine κ ν) = [] := rfl

@[simp] theorem rightEntries_cons (s : κ × ν × Tree κ ν) (rs : RightSpine κ ν) :
    rightEntries (s :: rs) = rightEntries rs ++ (s.1, s.2.1) :: s.2.2.toList := by
  simp [rightEntries]

@[simp] theorem rightEntries_append (rs : RightSpine κ ν) (s : κ × ν × Tree κ ν) :
    rightEntries (rs ++ [s]) = (s.1, s.2.1) :: (s.2.2.toList ++ rightEntries rs) := by
  simp [rightEntries]

theorem toList_assembleLeft (ls : LeftSpine κ ν) (n : Int) (t : Tree κ ν) :
    (assembleLeft ls n t).toList = leftEntries ls ++ t.toList := by
  induction ls generalizing n with
  | nil => rfl
  | cons s ls ih => simp [assembleLeft, toList, ih]

theorem toList_assembleRight (rs : RightSpine κ ν) (n : Int) (t : Tree κ ν) :
    (assembleRight rs n t).toList = t.toList ++ rightEntries rs := by
  induction rs generalizing n with
  | nil => simp [assembleRight]
  | cons s rs ih => simp [assembleRight, toList, ih]

variable {k : κ} {t r l : Tree κ ν} {d : ν}

theorem sized_assembleLeft {ls : LeftSpine κ ν} (hls : ∀ s ∈ ls, s.1.Sized) (ht : t.Sized) {n : Int}
    (hn : n = (leftEntries ls).length + t.toList.length) : (assembleLeft ls n t).Sized := by
  induction ls generalizing n with
  | nil => exact ht
  | cons s ls ih =>
    have hs := hls s List.mem_cons_self
    rw [leftEntries_cons, List.length_append, List.length_cons] at hn
    refine ⟨hs, ih (fun s' hs' => hls s' (List.mem_cons_of_mem s hs')) ?_, ?_⟩
    · rw [hs.size_eq]
      omega
    · rw [toList_assembleLeft, List.length_append]
      omega

theorem sized_assembleRight {rs : RightSpine κ ν} (hrs : ∀ s ∈ rs, s.2.2.Sized) (ht : t.Sized) {n : Int}
    (hn : n = t.toList.length + (rightEntries rs).length) : (assembleRight rs n t).Sized := by
  induction rs generalizing n with
  | nil => exact ht
  | cons s rs ih =>
    obtain ⟨k, d, r⟩ := s
    have hr : r.Sized := hrs _ List.mem_cons_self
    rw [rightEntries_cons, List.length_append, List.length_cons] at hn
    dsimp only at hn
    refine ⟨ih (fun s' hs' => hrs s' (List.mem_cons_of_mem _ hs')) ?_, hr, ?_⟩
    · rw [hr.size_eq]
      omega
    · rw [toList_assembleRight, List.length_append]
      omega

/-! ## The operations -/

variable [LinearOrder κ]

/-- The walk down to the key `i`, with the two trees that are left behind and their sizes. -/
def walk (i : κ) : Tree κ ν → LeftSpine κ ν → RightSpine κ ν → Int → Int → Tree κ ν
  | nil, _, _, _, _ => nil
  | node l k _ d r, ls, rs, lSize, rSize =>
    if i < k then
      match l with
      | nil => assemble nil k d r ls rs lSize rSize
      | node ll lk lz ld lr =>
        if i < lk then
          -- rotate right
          let t := node lr k (lr.size + r.size + 1) d r
          match ll with
          | nil => assemble nil lk ld t ls rs lSize rSize
          | node a b c e f => walk i (node a b c e f) ls (rs ++ [(lk, ld, t)]) lSize (rSize + (1 + t.size))
        else walk i (node ll lk lz ld lr) ls (rs ++ [(k, d, r)]) lSize (rSize + (1 + r.size))
    else if k < i then
      match r with
      | nil => assemble l k d nil ls rs lSize rSize
      | node rl rk rz rd rr =>
        if rk < i then
          -- rotate left
          let t := node l k (l.size + rl.size + 1) d rl
          match rr with
          | nil => assemble t rk rd nil ls rs lSize rSize
          | node a b c e f => walk i (node a b c e f) (ls ++ [(t, rk, rd)]) rs (lSize + (1 + t.size)) rSize
        else walk i (node rl rk rz rd rr) (ls ++ [(l, k, d)]) rs (lSize + (1 + l.size)) rSize
    else assemble l k d r ls rs lSize rSize

/-- **The search**: the node with the key `i` becomes the root, or one of its neighbours. -/
def splay (t : Tree κ ν) (i : κ) : Tree κ ν := walk i t [] [] 0 0

/-- The node `i` is made the root, with the trees of a search on its sides. -/
def insert (t : Tree κ ν) (i : κ) (data : ν) : Tree κ ν :=
  match splay t i with
  | nil => node nil i 1 data nil
  | node l k s d r =>
    if i = k then node l k s d r
    else if i < k then
      let t := node nil k (1 + r.size) d r
      node l i (1 + l.size + t.size) data t
    else
      let t := node l k (1 + l.size) d nil
      node t i (1 + t.size + r.size) data r

/-- The children of the root are joined below the largest key on the left. -/
def delete (t : Tree κ ν) (i : κ) : Tree κ ν :=
  match splay t i with
  | nil => nil
  | node l k s d r =>
    if i = k then
      match splay l i with
      | nil =>
        match r with
        | nil => nil
        | node rl rk _ rd rr => node rl rk (t.size - 1) rd rr
      | node xl xk _ xd _ => node xl xk (t.size - 1) xd r
    else node l k s d r

/-! ## The search -/

/-- The entries are in the order of their keys, and no key occurs twice. -/
def Sorted (es : List (κ × ν)) : Prop := es.Pairwise fun a b => a.1 < b.1

def Parted (i : κ) (es : List (κ × ν)) (t : Tree κ ν) : Prop :=
  ∃ l k s d r, t = node l k s d r ∧ l.toList ++ (k, d) :: r.toList = es ∧ (node l k s d r).Sized ∧
    (∀ e ∈ l.toList, e.1 < i) ∧ ∀ e ∈ r.toList, i < e.1

/-- The trees that have been left behind, on the way to the key `i`. -/
structure Behind (i : κ) (ls : LeftSpine κ ν) (rs : RightSpine κ ν) (lSize rSize : Int) : Prop where
  leftSized : ∀ s ∈ ls, s.1.Sized
  rightSized : ∀ s ∈ rs, s.2.2.Sized
  left : ∀ e ∈ leftEntries ls, e.1 < i
  right : ∀ e ∈ rightEntries rs, i < e.1
  leftSize : lSize = (leftEntries ls).length
  rightSize : rSize = (rightEntries rs).length

variable {i : κ} {ls : LeftSpine κ ν} {rs : RightSpine κ ν} {lSize rSize : Int}

theorem Behind.nil (i : κ) : Behind i ([] : LeftSpine κ ν) [] 0 0 :=
  ⟨nofun, nofun, nofun, nofun, rfl, rfl⟩

theorem Behind.linkRight (h : Behind i ls rs lSize rSize) (d : ν) (hr : r.Sized) (hk : i < k)
    (hright : ∀ e ∈ r.toList, i < e.1) : Behind i ls (rs ++ [(k, d, r)]) lSize (rSize + (1 + r.size)) := by
  refine ⟨h.leftSized, fun s hs => ?_, h.left, fun e he => ?_, h.leftSize, ?_⟩
  · rcases List.mem_append.mp hs with hs | hs
    · exact h.rightSized s hs
    · rw [List.mem_singleton.mp hs]
      exact hr
  · rw [rightEntries_append] at he
    rcases List.mem_cons.mp he with rfl | he
    · exact hk
    · exact (List.mem_append.mp he).elim (hright e) (h.right e)
  · rw [rightEntries_append, h.rightSize, hr.size_eq, List.length_cons, List.length_append]
    dsimp only
    omega

theorem Behind.linkLeft (h : Behind i ls rs lSize rSize) (d : ν) (hl : l.Sized) (hk : k < i)
    (hleft : ∀ e ∈ l.toList, e.1 < i) : Behind i (ls ++ [(l, k, d)]) rs (lSize + (1 + l.size)) rSize := by
  refine ⟨fun s hs => ?_, h.rightSized, fun e he => ?_, h.right, ?_, h.rightSize⟩
  · rcases List.mem_append.mp hs with hs | hs
    · exact h.leftSized s hs
    · rw [List.mem_singleton.mp hs]
      exact hl
  · rw [leftEntries_append] at he
    rcases List.mem_append.mp he with he | he
    · exact h.left e he
    · rcases List.mem_append.mp he with he | he
      · exact hleft e he
      · rw [List.mem_singleton.mp he]
        exact hk
  · rw [leftEntries_append, h.leftSize, hl.size_eq, List.length_append, List.length_append, List.length_singleton]
    dsimp only
    omega

/-- **The end of the walk.** -/
theorem Behind.assemble (h : Behind i ls rs lSize rSize) (k : κ) (d : ν) (hl : l.Sized) (hr : r.Sized)
    (hleft : ∀ e ∈ l.toList, e.1 < i) (hright : ∀ e ∈ r.toList, i < e.1) :
    Parted i (leftEntries ls ++ (l.toList ++ (k, d) :: r.toList) ++ rightEntries rs)
      (SplayTree.assemble l k d r ls rs lSize rSize) := by
  have hls := sized_assembleLeft h.leftSized hl rfl
  have hrs := sized_assembleRight h.rightSized hr rfl
  unfold SplayTree.assemble
  rw [h.leftSize, h.rightSize, hl.size_eq, hr.size_eq]
  refine ⟨_, k, _, d, _, rfl, ?_, ⟨hls, ?_, ?_⟩, ?_, ?_⟩
  · simp [toList_assembleLeft, toList_assembleRight]
  · rw [Int.add_comm]
    exact hrs
  · simp [toList_assembleLeft, toList_assembleRight]
    omega
  · intro e he
    rw [toList_assembleLeft] at he
    exact (List.mem_append.mp he).elim (h.left e) (hleft e)
  · intro e he
    rw [toList_assembleRight] at he
    exact (List.mem_append.mp he).elim (hright e) (h.right e)

theorem parted_right {t' : Tree κ ν}
    (h : Parted i (leftEntries ls ++ t.toList ++ rightEntries (rs ++ [(k, d, r)])) t') :
    Parted i (leftEntries ls ++ (t.toList ++ (k, d) :: r.toList) ++ rightEntries rs) t' := by
  simpa using h

theorem parted_left {t' : Tree κ ν}
    (h : Parted i (leftEntries (ls ++ [(l, k, d)]) ++ t.toList ++ rightEntries rs) t') :
    Parted i (leftEntries ls ++ (l.toList ++ (k, d) :: t.toList) ++ rightEntries rs) t' := by
  simpa using h

theorem Sorted.left {s : Int} (h : Sorted (node l k s d r).toList) : Sorted l.toList ∧ ∀ e ∈ l.toList, e.1 < k := by
  obtain ⟨hl, -, hlr⟩ := List.pairwise_append.mp h
  exact ⟨hl, fun e he => hlr e he (k, d) List.mem_cons_self⟩

theorem Sorted.right {s : Int} (h : Sorted (node l k s d r).toList) : Sorted r.toList ∧ ∀ e ∈ r.toList, k < e.1 := by
  obtain ⟨-, hr, -⟩ := List.pairwise_append.mp h
  obtain ⟨hk, hr⟩ := List.pairwise_cons.mp hr
  exact ⟨hr, hk⟩

/-- **The walk parts the entries at its key.** -/
theorem walk_spec (hne : t ≠ nil) (ht : t.Sized) (hsorted : Sorted t.toList) (h : Behind i ls rs lSize rSize) :
    Parted i (leftEntries ls ++ t.toList ++ rightEntries rs) (walk i t ls rs lSize rSize) := by
  fun_induction walk i t ls rs lSize rSize with
  | case1 => exact absurd rfl hne
  | case2 k z d r ls rs lSize rSize hk =>
    -- nothing on the left of `k`
    exact h.assemble k d trivial ht.2.1 nofun fun e he => lt_trans hk (hsorted.right.2 e he)
  | case3 k z d r ls rs lSize rSize hk lk lz ld lr hlk t =>
    obtain ⟨⟨-, hlr, -⟩, hr, -⟩ := ht
    have hright : ∀ e ∈ t.toList, i < e.1 := by
      intro e he
      rcases List.mem_append.mp he with he | he
      · exact lt_trans hlk (hsorted.left.1.right.2 e he)
      · rcases List.mem_cons.mp he with rfl | he
        · exact hk
        · exact lt_trans hk (hsorted.right.2 e he)
    have hparted := h.assemble lk ld (l := nil) trivial (sized_node hlr hr) nofun hright
    simpa [toList, t] using hparted
  | case4 k z d r ls rs lSize rSize hk lk lz ld lr hlk t a b c e f ih =>
    obtain ⟨⟨hll, hlr, -⟩, hr, -⟩ := ht
    have hright : ∀ e ∈ t.toList, i < e.1 := by
      intro e he
      rcases List.mem_append.mp he with he | he
      · exact lt_trans hlk (hsorted.left.1.right.2 e he)
      · rcases List.mem_cons.mp he with rfl | he
        · exact hk
        · exact lt_trans hk (hsorted.right.2 e he)
    have hparted := parted_right (ih nofun hll hsorted.left.1.left.1 (h.linkRight ld (sized_node hlr hr) hlk hright))
    simpa [toList, t] using hparted
  | case5 k z d r ls rs lSize rSize hk a b c e f hlk ih =>
    obtain ⟨hl, hr, -⟩ := ht
    exact parted_right (ih nofun hl hsorted.left.1 (h.linkRight d hr hk fun e he => lt_trans hk (hsorted.right.2 e he)))
  | case6 l k z d ls rs lSize rSize _ hk =>
    -- nothing on the right of `k`
    exact h.assemble k d ht.1 trivial (fun e he => lt_trans (hsorted.left.2 e he) hk) nofun
  | case7 l k z d ls rs lSize rSize _ hk rl rk rz rd hrk =>
    obtain ⟨hl, ⟨hrl, -, -⟩, -⟩ := ht
    have hleft : ∀ e ∈ (node l k (l.size + rl.size + 1) d rl).toList, e.1 < i := by
      intro e he
      rcases List.mem_append.mp he with he | he
      · exact lt_trans (hsorted.left.2 e he) hk
      · rcases List.mem_cons.mp he with rfl | he
        · exact hk
        · exact lt_trans (hsorted.right.1.left.2 e he) hrk
    have hparted := h.assemble rk rd (r := nil) (sized_node hl hrl) trivial hleft nofun
    simpa [toList] using hparted
  | case8 l k z d ls rs lSize rSize _ hk rl rk rz rd hrk t a b c e f ih =>
    obtain ⟨hl, ⟨hrl, hrr, -⟩, -⟩ := ht
    have hleft : ∀ e ∈ t.toList, e.1 < i := by
      intro e he
      rcases List.mem_append.mp he with he | he
      · exact lt_trans (hsorted.left.2 e he) hk
      · rcases List.mem_cons.mp he with rfl | he
        · exact hk
        · exact lt_trans (hsorted.right.1.left.2 e he) hrk
    have hparted := parted_left (ih nofun hrr hsorted.right.1.right.1 (h.linkLeft rd (sized_node hl hrl) hrk hleft))
    simpa [toList, t] using hparted
  | case9 l k z d ls rs lSize rSize _ hk a b c e f hrk ih =>
    obtain ⟨hl, hr, -⟩ := ht
    exact parted_left (ih nofun hr hsorted.right.1 (h.linkLeft d hl hk fun e he => lt_trans (hsorted.left.2 e he) hk))
  | case10 l k z d r ls rs lSize rSize hk hk' =>
    have heq : i = k := le_antisymm (not_lt.mp hk') (not_lt.mp hk)
    obtain ⟨hl, hr, -⟩ := ht
    rw [heq] at h ⊢
    exact h.assemble k d hl hr hsorted.left.2 hsorted.right.2

/-- **The search parts the entries at its key**, and keeps them. -/
theorem splay_spec (i : κ) (ht : t.Sized) (hsorted : Sorted t.toList) :
    (t = nil ∧ splay t i = nil) ∨ Parted i t.toList (splay t i) := by
  by_cases hne : t = nil
  · exact .inl ⟨hne, by rw [hne]; rfl⟩
  · have h := walk_spec hne ht hsorted (Behind.nil i)
    exact .inr (by simpa [splay] using h)

theorem toList_splay (i : κ) (ht : t.Sized) (hsorted : Sorted t.toList) : (splay t i).toList = t.toList := by
  obtain ⟨rfl, h⟩ | ⟨l, k, s, d, r, heq, hentries, -⟩ := splay_spec i ht hsorted
  · rw [h]
  · rw [heq]
    exact hentries

theorem sized_splay (i : κ) (ht : t.Sized) (hsorted : Sorted t.toList) : (splay t i).Sized := by
  obtain ⟨-, h⟩ | ⟨l, k, s, d, r, heq, -, hsized, -⟩ := splay_spec i ht hsorted
  · rw [h]
    exact trivial
  · rw [heq]
    exact hsized

/-- Entries that are parted at `i` by an entry with another key have no entry with the key `i`. -/
theorem ne_of_parted {l r es : List (κ × ν)} (hentries : l ++ (k, d) :: r = es)
    (hleft : ∀ e ∈ l, e.1 < i) (hright : ∀ e ∈ r, i < e.1) (hne : i ≠ k) : ∀ e ∈ es, e.1 ≠ i := by
  intro e he
  rw [← hentries] at he
  rcases List.mem_append.mp he with he | he
  · exact ne_of_lt (hleft e he)
  · rcases List.mem_cons.mp he with rfl | he
    · exact hne.symm
    · exact (ne_of_lt (hright e he)).symm

/-! ## Insertion and deletion -/

/-- **A new entry** becomes the root. -/
theorem insert_spec (data : ν) (ht : t.Sized) (hsorted : Sorted t.toList) (hnew : ∀ e ∈ t.toList, e.1 ≠ i) :
    ∃ l s r, insert t i data = node l i s data r ∧ (node l i s data r).Sized ∧ Sorted (node l i s data r).toList ∧
      l.toList ++ r.toList = t.toList := by
  obtain ⟨rfl, h⟩ | ⟨l, k, s, d, r, heq, hentries, ⟨hl, hr, -⟩, hleft, hright⟩ := splay_spec i ht hsorted
  · refine ⟨nil, 1, nil, ?_, ⟨trivial, trivial, rfl⟩, List.pairwise_singleton _ _, rfl⟩
    rw [insert, h]
  · have hne : i ≠ k := fun hk => hnew (k, d) (by rw [← hentries]; simp) hk.symm
    have hsorted' : Sorted (l.toList ++ (k, d) :: r.toList) := by rwa [hentries]
    obtain ⟨hsl, hsr, hcross⟩ := List.pairwise_append.mp hsorted'
    obtain ⟨hk, hsr'⟩ := List.pairwise_cons.mp hsr
    by_cases hlt : i < k
    · refine ⟨l, 1 + l.size + (node nil k (1 + r.size) d r).size, node nil k (1 + r.size) d r,
        by rw [insert, heq]; simp only [if_neg hne, if_pos hlt], ?_, ?_, hentries⟩
      · have hnode : (node (nil : Tree κ ν) k (1 + r.size) d r).Sized := ⟨trivial, hr, by simp [toList, hr.size_eq]; omega⟩
        exact ⟨hl, hnode, by rw [hl.size_eq, hnode.size_eq]; omega⟩
      · refine List.pairwise_append.mpr ⟨hsl, List.pairwise_cons.mpr ⟨?_, hsr⟩, ?_⟩
        · intro e he
          rcases List.mem_cons.mp he with rfl | he
          · exact hlt
          · exact hright e he
        · intro e he e' he'
          rcases List.mem_cons.mp he' with rfl | he'
          · exact hleft e he
          · exact hcross e he e' he'
    · have hgt : k < i := lt_of_le_of_ne (not_lt.mp hlt) hne.symm
      refine ⟨node l k (1 + l.size) d nil, 1 + (node l k (1 + l.size) d nil).size + r.size, r,
        by rw [insert, heq]; simp only [if_neg hne, if_neg hlt], ?_, ?_, ?_⟩
      · have hnode : (node l k (1 + l.size) d (nil : Tree κ ν)).Sized := ⟨hl, trivial, by simp [toList, hl.size_eq]; omega⟩
        exact ⟨hnode, hr, by rw [hr.size_eq, hnode.size_eq]; omega⟩
      · have hsorted'' : Sorted ((l.toList ++ [(k, d)]) ++ r.toList) := by simpa using hsorted'
        obtain ⟨hsl', -, hcross'⟩ := List.pairwise_append.mp hsorted''
        refine List.pairwise_append.mpr ⟨hsl', List.pairwise_cons.mpr ⟨hright, hsr'⟩, ?_⟩
        intro e he e' he'
        rcases List.mem_cons.mp he' with rfl | he'
        · rcases List.mem_append.mp he with he | he
          · exact hleft e he
          · rw [List.mem_singleton.mp he]
            exact hgt
        · exact hcross' e he e' he'
      · rw [← hentries]
        simp [toList]

/-- **An entry is deleted.** -/
theorem delete_spec (i : κ) (ht : t.Sized) (hsorted : Sorted t.toList) :
    (delete t i).Sized ∧ (delete t i).toList = t.toList.filter fun e => e.1 ≠ i := by
  obtain ⟨rfl, h⟩ | ⟨l, k, s, d, r, heq, hentries, hsized, hleft, hright⟩ := splay_spec i ht hsorted
  · rw [delete, h]
    exact ⟨trivial, rfl⟩
  · obtain ⟨hl, hr, hs⟩ := hsized
    have hfilterLeft : l.toList.filter (fun e => e.1 ≠ i) = l.toList :=
      List.filter_eq_self.mpr fun e he => by simpa using ne_of_lt (hleft e he)
    have hfilterRight : r.toList.filter (fun e => e.1 ≠ i) = r.toList :=
      List.filter_eq_self.mpr fun e he => by simpa using (ne_of_lt (hright e he)).symm
    have hlength : (t.size : Int) = l.toList.length + r.toList.length + 1 := by
      rw [ht.size_eq, ← hentries]
      simp
      omega
    by_cases hk : i = k
    · subst hk
      have hfilter : t.toList.filter (fun e => e.1 ≠ i) = l.toList ++ r.toList := by
        rw [← hentries, List.filter_append, List.filter_cons, hfilterLeft, hfilterRight]
        simp
      rw [hfilter, delete, heq]
      simp only [if_true]
      have hsl : Sorted l.toList := by
        rw [← hentries] at hsorted
        exact (List.pairwise_append.mp hsorted).1
      obtain ⟨rfl, h⟩ | ⟨xl, xk, xs, xd, xr, hx, hxe, hxs, -, hxright⟩ := splay_spec i hl hsl
      · rw [h]
        cases r with
        | nil => exact ⟨trivial, rfl⟩
        | node rl rk rz rd rr =>
          obtain ⟨hrl, hrr, hrz⟩ := hr
          refine ⟨⟨hrl, hrr, ?_⟩, rfl⟩
          rw [hlength]
          simp [toList]
          omega
      · -- the largest entry on the left has nothing on its right
        have hxr : xr.toList = [] := by
          refine List.eq_nil_iff_forall_not_mem.mpr fun e he => ?_
          have hmem : e ∈ l.toList := by
            rw [← hxe]
            exact List.mem_append_right _ (List.mem_cons_of_mem _ he)
          exact absurd (lt_trans (hxright e he) (hleft e hmem)) (lt_irrefl _)
        rw [hx]
        rw [hxr] at hxe
        refine ⟨⟨hxs.1, hr, ?_⟩, ?_⟩
        · rw [hlength, ← hxe]
          simp
          omega
        · rw [← hxe]
          simp [toList]
    · have hne := ne_of_parted hentries hleft hright hk
      rw [delete, heq]
      simp only [if_neg hk]
      rw [← heq]
      refine ⟨sized_splay i ht hsorted, ?_⟩
      rw [toList_splay i ht hsorted, List.filter_eq_self.mpr fun e he => by simpa using hne e he]

end SplayTree
