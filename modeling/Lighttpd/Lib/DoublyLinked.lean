import Mathlib.Data.List.Nodup
import Mathlib.Data.List.Perm.Basic
import Mathlib.Logic.Function.Basic

/-!
# Doubly linked lists

The links of nodes that are named by keys: `first`, and for each node `prev` and `next`. `IsList d l` says that the
nodes of `l`, each once, are the list that starts at `first`, linked both ways. `Seg` is the same for a part of a list,
with the links at its two ends, so that a change of a link is one of these ends.
-/

namespace DoublyLinked

/-- The links of a list. -/
structure Links (κ : Type*) where
  first : Option κ
  prev : κ → Option κ
  next : κ → Option κ

variable {κ : Type*} [DecidableEq κ] {d : Links κ} {a b v : Option κ} {x y : κ} {l l₁ l₂ : List κ}

namespace Links

def linkNext (d : Links κ) (node v : Option κ) : Links κ :=
  match node with
  | none => d
  | some x => { d with next := Function.update d.next x v }

def linkPrev (d : Links κ) (node v : Option κ) : Links κ :=
  match node with
  | none => d
  | some x => { d with prev := Function.update d.prev x v }

/-- The neighbours of a node are linked with each other. -/
def unlink (d : Links κ) (x : κ) : Links κ :=
  let d := d.linkNext (d.prev x) (d.next x)
  d.linkPrev (d.next x) (d.prev x)

/-- A node is linked in between two neighbours. -/
def insert (d : Links κ) (p : Option κ) (x : κ) (n : Option κ) : Links κ :=
  let d := d.linkNext (some x) n
  let d := d.linkPrev (some x) p
  let d := d.linkPrev n (some x)
  d.linkNext p (some x)

def insertAfter (d : Links κ) (p x : κ) : Links κ :=
  let d := d.linkNext (some x) (d.next p)
  let d := d.linkPrev (some x) (some p)
  let d := d.linkPrev (d.next p) (some x)
  d.linkNext (some p) (some x)

def insertBefore (d : Links κ) (p x : κ) : Links κ :=
  let d := d.linkNext (some x) (some p)
  let d := d.linkPrev (some x) (d.prev p)
  let d := d.linkNext (d.prev p) (some x)
  d.linkPrev (some p) (some x)

@[simp]
theorem linkNext_first (node v : Option κ) : (d.linkNext node v).first = d.first := by
  cases node <;> rfl

@[simp]
theorem linkPrev_first (node v : Option κ) : (d.linkPrev node v).first = d.first := by
  cases node <;> rfl

@[simp]
theorem linkNext_prev (node v : Option κ) : (d.linkNext node v).prev = d.prev := by
  cases node <;> rfl

@[simp]
theorem linkPrev_next (node v : Option κ) : (d.linkPrev node v).next = d.next := by
  cases node <;> rfl

theorem linkNext_next_self (x : κ) (v : Option κ) : (d.linkNext (some x) v).next x = v := Function.update_self ..

theorem linkPrev_prev_self (x : κ) (v : Option κ) : (d.linkPrev (some x) v).prev x = v := Function.update_self ..

theorem linkNext_next_of_ne {node : Option κ} (h : node ≠ some x) (v : Option κ) :
    (d.linkNext node v).next x = d.next x := by
  cases node with
  | none => rfl
  | some y =>
    apply Function.update_of_ne
    rintro rfl
    exact h rfl

theorem linkPrev_prev_of_ne {node : Option κ} (h : node ≠ some x) (v : Option κ) :
    (d.linkPrev node v).prev x = d.prev x := by
  cases node with
  | none => rfl
  | some y =>
    apply Function.update_of_ne
    rintro rfl
    exact h rfl

theorem linkPrev_linkNext (n p v w : Option κ) : (d.linkNext p w).linkPrev n v = (d.linkPrev n v).linkNext p w := by
  cases n <;> cases p <;> rfl

theorem insertAfter_eq (h : x ≠ y) : d.insertAfter y x = d.insert (some y) x (d.next y) := by
  unfold insertAfter insert
  dsimp only
  rw [linkPrev_next, linkNext_next_of_ne (by rwa [ne_eq, Option.some.injEq])]

theorem insertBefore_eq (h : x ≠ y) : d.insertBefore y x = d.insert (d.prev y) x (some y) := by
  unfold insertBefore insert
  dsimp only
  rw [linkPrev_prev_of_ne (by rwa [ne_eq, Option.some.injEq]), linkNext_prev, linkPrev_linkNext]

end Links

/-! ## Parts of a list -/

/-- The nodes `l` are linked one after another; `a` is before and `b` behind them. -/
def Seg (d : Links κ) : Option κ → List κ → Option κ → Prop
  | _, [], _ => True
  | a, x :: l, b => d.prev x = a ∧ d.next x = l.head?.or b ∧ Seg d (some x) l b

omit [DecidableEq κ] in
theorem seg_append : Seg d a (l₁ ++ l₂) b ↔ Seg d a l₁ (l₂.head?.or b) ∧ Seg d (l₁.getLast?.or a) l₂ b := by
  induction l₁ generalizing a with
  | nil => simp [Seg]
  | cons x l₁ ih =>
    rw [List.cons_append, Seg, Seg, ih, List.head?_append, Option.or_assoc, and_assoc, and_assoc]
    cases l₁ with
    | nil => simp
    | cons y l₁ => simp [List.getLast?_cons]

omit [DecidableEq κ] in
theorem Seg.congr {d' : Links κ} (h : Seg d a l b) (hlinks : ∀ x ∈ l, d'.prev x = d.prev x ∧ d'.next x = d.next x) :
    Seg d' a l b := by
  induction l generalizing a with
  | nil => exact trivial
  | cons x l ih =>
    obtain ⟨hprev, hnext⟩ := hlinks x List.mem_cons_self
    refine ⟨hprev.trans h.1, hnext.trans h.2.1, ih h.2.2 ?_⟩
    exact fun y hy => hlinks y (List.mem_cons_of_mem x hy)

theorem Seg.linkNext (h : Seg d a l b) {node : Option κ} (hnode : ∀ x ∈ l, node ≠ some x) (v : Option κ) :
    Seg (d.linkNext node v) a l b := by
  apply h.congr
  intro x hx
  rw [Links.linkNext_prev, Links.linkNext_next_of_ne (hnode x hx)]
  exact ⟨rfl, rfl⟩

theorem Seg.linkPrev (h : Seg d a l b) {node : Option κ} (hnode : ∀ x ∈ l, node ≠ some x) (v : Option κ) :
    Seg (d.linkPrev node v) a l b := by
  apply h.congr
  intro x hx
  rw [Links.linkPrev_next, Links.linkPrev_prev_of_ne (hnode x hx)]
  exact ⟨rfl, rfl⟩

theorem Seg.linkNext_last (h : Seg d a l b) (hl : l.Nodup) (v : Option κ) : Seg (d.linkNext l.getLast? v) a l v := by
  rcases List.eq_nil_or_concat l with rfl | ⟨l', x, rfl⟩
  · exact trivial
  · rw [List.concat_eq_append] at h hl ⊢
    obtain ⟨hl', hx⟩ := Iff.mp seg_append h
    rw [List.getLast?_concat]
    have hnot : x ∉ l' := by
      intro hmem
      exact List.disjoint_of_nodup_append hl hmem (List.mem_singleton_self x)
    apply Iff.mpr seg_append
    constructor
    · apply Seg.linkNext hl'
      rintro y hy ⟨⟩
      exact hnot hy
    · refine ⟨?_, Links.linkNext_next_self x v, trivial⟩
      rw [Links.linkNext_prev]
      exact hx.1

theorem Seg.linkPrev_head (h : Seg d a l b) (hl : l.Nodup) (v : Option κ) : Seg (d.linkPrev l.head? v) v l b := by
  cases l with
  | nil => exact trivial
  | cons x l =>
    refine ⟨Links.linkPrev_prev_self x v, ?_, ?_⟩
    · rw [List.head?_cons, Links.linkPrev_next]
      exact h.2.1
    · apply Seg.linkPrev h.2.2
      rintro y hy ⟨⟩
      exact (List.nodup_cons.mp hl).1 hy

/-! ## Whole lists -/

/-- **The links are a list of the nodes `l`.** -/
structure IsList (d : Links κ) (l : List κ) : Prop where
  first : d.first = l.head?
  seg : Seg d none l none
  nodup : l.Nodup

omit [DecidableEq κ] in
theorem IsList.at (h : IsList d (l₁ ++ x :: l₂)) :
    d.prev x = l₁.getLast? ∧ d.next x = l₂.head? ∧ Seg d none l₁ (some x) ∧ Seg d (some x) l₂ none := by
  obtain ⟨h₁, hprev, hnext, h₂⟩ := Iff.mp seg_append h.seg
  rw [Option.or_none] at hprev hnext
  exact ⟨hprev, hnext, h₁, h₂⟩

omit [DecidableEq κ] in
theorem IsList.nodups (h : IsList d (l₁ ++ x :: l₂)) :
    l₁.Nodup ∧ l₂.Nodup ∧ x ∉ l₁ ∧ x ∉ l₂ ∧ ∀ y ∈ l₁, y ∉ l₂ := by
  obtain ⟨h₁, h₂, hdisj⟩ := List.nodup_append.mp h.nodup
  obtain ⟨hx, h₂⟩ := List.nodup_cons.mp h₂
  refine ⟨h₁, h₂, ?_, hx, ?_⟩
  · intro hmem
    exact hdisj x hmem x List.mem_cons_self rfl
  · intro y hy hy'
    exact hdisj y hy y (List.mem_cons_of_mem x hy') rfl

omit [DecidableEq κ] in
theorem getLast?_ne (h : x ∉ l) : l.getLast? ≠ some x := by
  intro hlast
  exact h (List.mem_of_getLast? hlast)

omit [DecidableEq κ] in
theorem head?_ne (h : x ∉ l) : l.head? ≠ some x := by
  intro hhead
  exact h (List.mem_of_head? hhead)

/-- **Unlinking a node** leaves the others linked. -/
theorem IsList.unlink (h : IsList d (l₁ ++ x :: l₂)) : Seg (d.unlink x) none (l₁ ++ l₂) none := by
  obtain ⟨hprev, hnext, h₁, h₂⟩ := h.at
  obtain ⟨hl₁, hl₂, hx₁, hx₂, hdisj⟩ := h.nodups
  unfold Links.unlink
  dsimp only
  rw [Links.linkNext_next_of_ne (by rw [hprev]; exact getLast?_ne hx₁), Links.linkNext_prev, hprev, hnext]
  apply seg_append.mpr
  rw [Option.or_none, Option.or_none]
  constructor
  · apply Seg.linkPrev (h₁.linkNext_last hl₁ l₂.head?)
    intro y hy hhead
    exact hdisj y hy (List.mem_of_head? hhead)
  · apply Seg.linkPrev_head (b := none) (a := some x) ?_ hl₂
    apply Seg.linkNext h₂
    intro y hy hlast
    exact hdisj y (List.mem_of_getLast? hlast) hy

theorem unlink_first (x : κ) : (d.unlink x).first = d.first := by
  simp [Links.unlink]

theorem unlink_of_prev_none (h : d.prev x = none) : d.unlink x = d.linkPrev (d.next x) none := by
  unfold Links.unlink
  rw [h]
  simp only [Links.linkNext]
  rw [h]

/-- **A node is linked in between two parts of a list.** -/
theorem Seg.insert (h : Seg d none (l₁ ++ l₂) none) (hl : (l₁ ++ l₂).Nodup) (hx : x ∉ l₁ ++ l₂) :
    Seg (d.insert l₁.getLast? x l₂.head?) none (l₁ ++ x :: l₂) none := by
  obtain ⟨h₁, h₂⟩ := seg_append.mp h
  rw [Option.or_none] at h₂
  obtain ⟨hl₁, hl₂, hdisj⟩ := List.nodup_append.mp hl
  have hx₁ : x ∉ l₁ := fun hmem => hx (List.mem_append_left _ hmem)
  have hx₂ : x ∉ l₂ := fun hmem => hx (List.mem_append_right _ hmem)
  have hne : ∀ {l : List κ}, x ∉ l → ∀ w ∈ l, some x ≠ some w := by
    rintro l hmem w hw ⟨⟩
    exact hmem hw
  unfold Links.insert
  dsimp only
  apply seg_append.mpr
  refine ⟨?_, ?_, ?_, ?_⟩
  · refine Seg.linkNext_last (b := l₂.head?) ?_ hl₁ (some x)
    apply Seg.linkPrev _ (fun w hw => head?_ne fun hmem => hdisj w hw w hmem rfl)
    rw [Option.or_none] at h₁
    exact (h₁.linkNext (hne hx₁) _).linkPrev (hne hx₁) _
  · rw [Links.linkNext_prev, Links.linkPrev_prev_of_ne (head?_ne hx₂), Links.linkPrev_prev_self, Option.or_none]
  · rw [Links.linkNext_next_of_ne (getLast?_ne hx₁), Links.linkPrev_next, Links.linkPrev_next,
      Links.linkNext_next_self, Option.or_none]
  · apply Seg.linkNext _ (fun w hw => getLast?_ne fun hmem => hdisj w hmem w hw rfl)
    refine Seg.linkPrev_head (a := l₁.getLast?) ?_ hl₂ (some x)
    exact (h₂.linkNext (hne hx₂) _).linkPrev (hne hx₂) _

/-- **A node is linked in behind another one.** -/
theorem Seg.insertAfter (h : Seg d none (l₁ ++ y :: l₂) none) (hl : (l₁ ++ y :: l₂).Nodup) (hx : x ∉ l₁ ++ y :: l₂) :
    Seg (d.insertAfter y x) none (l₁ ++ y :: x :: l₂) none := by
  have hxy : x ≠ y := List.ne_of_not_mem_cons fun hmem => hx (List.mem_append_right l₁ hmem)
  have hnext := (seg_append.mp h).2.2.1
  rw [Option.or_none] at hnext
  rw [Links.insertAfter_eq hxy, hnext]
  rw [← List.singleton_append, ← List.append_assoc] at h hl hx ⊢
  simpa using h.insert hl hx

/-- **A node is linked in before another one.** -/
theorem Seg.insertBefore (h : Seg d none (l₁ ++ y :: l₂) none) (hl : (l₁ ++ y :: l₂).Nodup)
    (hx : x ∉ l₁ ++ y :: l₂) : Seg (d.insertBefore y x) none (l₁ ++ x :: y :: l₂) none := by
  have hxy : x ≠ y := List.ne_of_not_mem_cons fun hmem => hx (List.mem_append_right l₁ hmem)
  have hprev := (seg_append.mp h).2.1
  rw [Option.or_none] at hprev
  rw [Links.insertBefore_eq hxy, hprev]
  exact h.insert hl hx

end DoublyLinked
