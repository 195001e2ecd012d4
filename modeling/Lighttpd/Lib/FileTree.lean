import Mathlib.Data.List.Basic

/-!
# Trees of files

The entries of a directory, with the directories below it. An operation on a path first finds the directory that has its
last name and then changes that name: what it sees is a `Slot`. A file system is the slot of its root.

- `below_put_self`, `below_put_ne`: one name is changed, and no other;
- `lookup_update_self`, `lookup_update_apart`: one path is changed, and no path apart from it;
- `Written`: what several operations on one path have done.
-/

namespace FileTree

variable {ν γ : Type}

/-- The entries of a directory, in the order in which they are listed. -/
inductive Entries (ν γ : Type) where
  | nil
  | file (name : ν) (content : γ) (rest : Entries ν γ)
  | dir (name : ν) (entries rest : Entries ν γ)
deriving DecidableEq

/-- A file or a directory. -/
inductive Node (ν γ : Type) where
  | file (content : γ)
  | dir (entries : Entries ν γ)
deriving DecidableEq

/-- The reasons why there is no directory with the last name of a path. -/
inductive NoDir where
  | noEntry
  | notDir
deriving DecidableEq

/-- What stands at the last name of a path. -/
inductive Slot (ν γ : Type) where
  | noDir (why : NoDir)
  | entry (node : Option (Node ν γ))
deriving DecidableEq

namespace Entries

def names : Entries ν γ → List ν
  | nil => []
  | file n _ rest => n :: rest.names
  | dir n _ rest => n :: rest.names

/-- How many directories stand in one another. -/
def height : Entries ν γ → Nat
  | nil => 0
  | file _ _ rest => rest.height
  | dir _ es rest => max (es.height + 1) rest.height

/-- No directory has a name twice. -/
def Distinct : Entries ν γ → Prop
  | nil => True
  | file n _ rest => n ∉ rest.names ∧ rest.Distinct
  | dir n es rest => n ∉ rest.names ∧ es.Distinct ∧ rest.Distinct

end Entries

namespace Slot

def node : Slot ν γ → Option (Node ν γ)
  | noDir _ => none
  | entry k => k

/-- A name is in the same directory as before. -/
def Follows : Slot ν γ → Slot ν γ → Prop
  | noDir why, t => t = noDir why
  | entry _, t => ∃ k, t = entry k

theorem Follows.refl (s : Slot ν γ) : s.Follows s := by
  cases s with
  | noDir why => rfl
  | entry k => exact ⟨k, rfl⟩

theorem Follows.trans {s t u : Slot ν γ} (h : s.Follows t) (h' : t.Follows u) : s.Follows u := by
  cases s with
  | noDir why =>
    cases h
    exact h'
  | entry k =>
    obtain ⟨k', rfl⟩ := h
    exact h'

end Slot

/-- No directory of the tree has a name twice. -/
def Node.Distinct : Node ν γ → Prop
  | .file _ => True
  | .dir es => es.Distinct

/-- **A tree of files**, in which no directory has a name twice. -/
structure Tree (ν γ : Type) where
  node : Node ν γ
  distinct : node.Distinct

/-! ## Paths that have nothing in common -/

/-- Neither path begins with the other one. -/
def Apart (p q : List ν) : Prop := ¬ p <+: q ∧ ¬ q <+: p

theorem Apart.append {p q : List ν} (h : Apart p q) (r : List ν) : Apart (p ++ r) q := by
  refine ⟨fun hp => h.1 ((List.prefix_append p r).trans hp), fun hq => ?_⟩
  rcases List.prefix_or_prefix_of_prefix hq (List.prefix_append p r) with hqp | hpq
  · exact h.2 hqp
  · exact h.1 hpq

theorem apart_concat (p : List ν) {n m : ν} (h : n ≠ m) : Apart (p ++ [n]) (p ++ [m]) := by
  constructor
  · intro hp
    exact h (List.cons_prefix_cons.mp ((List.prefix_append_right_inj p).mp hp)).1
  · intro hp
    exact h (List.cons_prefix_cons.mp ((List.prefix_append_right_inj p).mp hp)).1.symm

variable [DecidableEq ν]

namespace Entries

def find : Entries ν γ → ν → Option (Node ν γ)
  | nil, _ => none
  | file n c rest, m => if n = m then some (.file c) else rest.find m
  | dir n es rest, m => if n = m then some (.dir es) else rest.find m

def cons (n : ν) : Node ν γ → Entries ν γ → Entries ν γ
  | .file c, rest => file n c rest
  | .dir es, rest => dir n es rest

def erase : Entries ν γ → ν → Entries ν γ
  | nil, _ => nil
  | file n c rest, m => if n = m then rest.erase m else file n c (rest.erase m)
  | dir n es rest, m => if n = m then rest.erase m else dir n es (rest.erase m)

def set : Entries ν γ → ν → Node ν γ → Entries ν γ
  | nil, m, k => cons m k nil
  | file n c rest, m, k => if n = m then cons m k rest else file n c (rest.set m k)
  | dir n es rest, m, k => if n = m then cons m k rest else dir n es (rest.set m k)

variable (es : Entries ν γ) {n m : ν} {k : Node ν γ}

@[simp] theorem find_cons : (cons n k es).find m = if n = m then some k else es.find m := by
  cases k <;> rfl

theorem find_set : (es.set n k).find m = if n = m then some k else es.find m := by
  induction es with
  | nil => simp [set]
  | file n' c rest ih => by_cases h : n' = n <;> by_cases h' : n' = m <;> simp_all [set, find, Ne.symm]
  | dir n' es rest _ ih => by_cases h : n' = n <;> by_cases h' : n' = m <;> simp_all [set, find, Ne.symm]

theorem find_erase : (es.erase n).find m = if n = m then none else es.find m := by
  induction es with
  | nil => simp [erase, find]
  | file n' c rest ih => by_cases h : n' = n <;> by_cases h' : n' = m <;> simp_all [erase, find, Ne.symm]
  | dir n' es rest _ ih => by_cases h : n' = n <;> by_cases h' : n' = m <;> simp_all [erase, find, Ne.symm]

theorem find_eq_none : es.find n = none ↔ n ∉ es.names := by
  induction es with
  | nil => simp [find, names]
  | file n' c rest ih => by_cases h : n' = n <;> simp [find, names, h, ih, Ne.symm]
  | dir n' es rest _ ih => by_cases h : n' = n <;> simp [find, names, h, ih, Ne.symm]

end Entries

namespace Slot

/-! ## One name of a directory -/

/-- The slot of a name in the directory. -/
def below : Slot ν γ → ν → Slot ν γ
  | noDir why, _ => noDir why
  | entry none, _ => noDir .noEntry
  | entry (some (.file _)), _ => noDir .notDir
  | entry (some (.dir es)), n => entry (es.find n)

/-- The directory, with a name that has another slot. -/
def put : Slot ν γ → ν → Slot ν γ → Slot ν γ
  | entry (some (.dir es)), n, entry (some k) => entry (some (.dir (es.set n k)))
  | entry (some (.dir es)), n, entry none => entry (some (.dir (es.erase n)))
  | s, _, _ => s

variable {s t : Slot ν γ} {n m : ν}

theorem below_put_self (h : (s.below n).Follows t) : (s.put n t).below n = t := by
  rcases s with why | _ | c | es
  · exact h.symm
  · exact h.symm
  · exact h.symm
  · obtain ⟨k, rfl⟩ := h
    cases k <;> simp [put, below, Entries.find_set, Entries.find_erase]

theorem below_put_ne (h : n ≠ m) : (s.put n t).below m = s.below m := by
  rcases s with why | _ | c | es
  · rfl
  · rfl
  · rfl
  · rcases t with why | _ | k <;> simp [put, below, Entries.find_set, Entries.find_erase, h]

theorem follows_put (s : Slot ν γ) (n : ν) (t : Slot ν γ) : s.Follows (s.put n t) := by
  rcases s with why | _ | c | es
  · rfl
  · exact ⟨_, rfl⟩
  · exact ⟨_, rfl⟩
  · rcases t with why | _ | k <;> exact ⟨_, rfl⟩

/-! ## What is below a path -/

/-- The slot at the end of a path. -/
def lookup : Slot ν γ → List ν → Slot ν γ
  | s, [] => s
  | s, n :: p => (s.below n).lookup p

/-- Another slot at the end of a path. -/
def update : Slot ν γ → List ν → Slot ν γ → Slot ν γ
  | _, [], t => t
  | s, n :: p, t => s.put n ((s.below n).update p t)

/-- The node at the end of a path. -/
def get (s : Slot ν γ) (p : List ν) : Option (Node ν γ) := (s.lookup p).node

@[simp] theorem lookup_nil (s : Slot ν γ) : s.lookup [] = s := rfl

theorem lookup_cons (s : Slot ν γ) (n : ν) (p : List ν) : s.lookup (n :: p) = (s.below n).lookup p := rfl

theorem lookup_append (s : Slot ν γ) (p q : List ν) : s.lookup (p ++ q) = (s.lookup p).lookup q := by
  induction p generalizing s with
  | nil => rfl
  | cons n p ih => exact ih (s.below n)

theorem lookup_concat (s : Slot ν γ) (p : List ν) (n : ν) : s.lookup (p ++ [n]) = (s.lookup p).below n :=
  lookup_append s p [n]

variable {p : List ν}

theorem get_eq_some {k : Node ν γ} : s.get p = some k ↔ s.lookup p = entry (some k) := by
  unfold get
  cases s.lookup p with
  | noDir why => simp [node]
  | entry k' => simp [node]

@[simp] theorem get_nil (s : Slot ν γ) : s.get [] = s.node := rfl

theorem get_cons (s : Slot ν γ) (n : ν) (p : List ν) : s.get (n :: p) = (s.below n).get p := rfl

theorem get_append (s : Slot ν γ) (p q : List ν) : s.get (p ++ q) = (s.lookup p).get q := by
  rw [get, lookup_append, get]

theorem lookup_noDir (why : NoDir) (p : List ν) : (noDir why : Slot ν γ).lookup p = noDir why := by
  induction p with
  | nil => rfl
  | cons n p ih => exact ih

@[simp] theorem get_noDir (why : NoDir) (p : List ν) : (noDir why : Slot ν γ).get p = none := by
  rw [get, lookup_noDir, node]

@[simp] theorem get_file (c : γ) (n : ν) (p : List ν) : (entry (some (.file c)) : Slot ν γ).get (n :: p) = none :=
  get_noDir .notDir p

@[simp] theorem get_absent (n : ν) (p : List ν) : (entry none : Slot ν γ).get (n :: p) = none := get_noDir .noEntry p

theorem get_entry {es : Entries ν γ} {n : ν} {k : Node ν γ} {m : ν} :
    (entry (some (.dir (es.cons n k)))).get (m :: p) =
      if n = m then (entry (some k)).get p else (entry (some (.dir es))).get (m :: p) := by
  rw [get_cons, get_cons, below, below, Entries.find_cons]
  split <;> rfl

/-- What stands above something is a directory. -/
theorem dir_of_lookup {k : Option (Node ν γ)} {n : ν} (h : s.lookup (n :: p) = entry k) :
    ∃ es, s = entry (some (.dir es)) := by
  rw [lookup_cons] at h
  rcases s with why | _ | c | es
  · rw [below, lookup_noDir] at h
    cases h
  · rw [below, lookup_noDir] at h
    cases h
  · rw [below, lookup_noDir] at h
    cases h
  · exact ⟨es, rfl⟩

theorem follows_update (h : (s.lookup p).Follows t) : s.Follows (s.update p t) := by
  cases p with
  | nil => exact h
  | cons n p => exact follows_put s n _

theorem lookup_update_self (h : (s.lookup p).Follows t) : (s.update p t).lookup p = t := by
  induction p generalizing s with
  | nil => rfl
  | cons n p ih =>
    rw [update, lookup_cons, below_put_self (follows_update h)]
    exact ih h

theorem lookup_update_apart {q : List ν} (h : (s.lookup p).Follows t) (hpq : Apart p q) :
    (s.update p t).lookup q = s.lookup q := by
  induction p generalizing s q with
  | nil => exact absurd (List.nil_prefix) hpq.1
  | cons n p ih =>
    cases q with
    | nil => exact absurd (List.nil_prefix) hpq.2
    | cons m q =>
      rw [update, lookup_cons, lookup_cons]
      by_cases hnm : n = m
      · subst hnm
        rw [below_put_self (follows_update h)]
        exact ih h ⟨fun hp => hpq.1 (List.cons_prefix_cons.mpr ⟨rfl, hp⟩),
          fun hp => hpq.2 (List.cons_prefix_cons.mpr ⟨rfl, hp⟩)⟩
      · rw [below_put_ne hnm]

/-! ## One path of a file system -/

/-- **Only what is at the end of a path has changed**, and what is below. -/
structure Written (fs : Slot ν γ) (p : List ν) (t fs' : Slot ν γ) : Prop where
  here : fs'.lookup p = t
  frame : ∀ q, Apart p q → fs'.lookup q = fs.lookup q

variable {fs fs' fs'' : Slot ν γ} {u : Slot ν γ}

theorem Written.refl (fs : Slot ν γ) (p : List ν) : fs.Written p (fs.lookup p) fs := ⟨rfl, fun _ _ => rfl⟩

theorem Written.trans (h : fs.Written p t fs') (h' : fs'.Written p u fs'') : fs.Written p u fs'' :=
  ⟨h'.here, fun q hq => (h'.frame q hq).trans (h.frame q hq)⟩

theorem written_update (h : (fs.lookup p).Follows t) : fs.Written p t (fs.update p t) :=
  ⟨lookup_update_self h, fun _ hq => lookup_update_apart h hq⟩

theorem written_entry {k : Option (Node ν γ)} (h : fs.lookup p = entry k) (k' : Option (Node ν γ)) :
    fs.Written p (entry k') (fs.update p (entry k')) :=
  written_update (by rw [h]; exact ⟨k', rfl⟩)

/-- What is written into a directory is written into one of its names. -/
theorem Written.above {q : List ν} (h : fs.Written (p ++ q) t fs') : fs.Written p (fs'.lookup p) fs' :=
  ⟨rfl, fun r hr => h.frame r (hr.append q)⟩

theorem Written.below_ne (h : fs.Written (p ++ [n]) t fs') (hnm : n ≠ m) :
    (fs'.lookup p).below m = (fs.lookup p).below m := by
  rw [← lookup_concat, ← lookup_concat, h.frame _ (apart_concat p hnm)]

theorem Written.below_self (h : fs.Written (p ++ [n]) t fs') : (fs'.lookup p).below n = t := by
  rw [← lookup_concat, h.here]

end Slot

/-- The file system. -/
def Tree.slot (t : Tree ν γ) : Slot ν γ := .entry (some t.node)

theorem Entries.Distinct.find {es : Entries ν γ} (h : es.Distinct) {n : ν} {k : Node ν γ} (hk : es.find n = some k) :
    k.Distinct := by
  induction es with
  | nil => cases hk
  | file m c rest ih =>
    rw [Entries.find] at hk
    split at hk
    · cases hk
      trivial
    · exact ih h.2 hk
  | dir m es rest _ ih =>
    rw [Entries.find] at hk
    split at hk
    · cases hk
      exact h.2.1
    · exact ih h.2.2 hk

/-- What is in a tree is a tree. -/
theorem Node.Distinct.get {k k' : Node ν γ} (h : k.Distinct) {p : List ν} (hk : (Slot.entry (some k)).get p = some k') :
    k'.Distinct := by
  induction p generalizing k with
  | nil =>
    cases hk
    exact h
  | cons n p ih =>
    cases k with
    | file c => simp at hk
    | dir es =>
      rw [Slot.get_cons, Slot.below] at hk
      cases hfind : es.find n with
      | none =>
        rw [hfind] at hk
        cases p with
        | nil => cases hk
        | cons m p => simp at hk
      | some k'' =>
        rw [hfind] at hk
        exact ih (Entries.Distinct.find h hfind) hk

end FileTree
