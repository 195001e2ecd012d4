import Mathlib.Data.List.Basic

/-!
# Path names

A path is a list of characters. Its segments are what stands between the separators; an empty one and a dot name the
directory itself, two dots name the directory above it.

- `resolve`, `normal`: the names that a list of segments comes to, and the path that is written for them;
- `clean_normal`: such a path has no other segments than names;
- `Clean.map`: other characters do not matter;
- `Clean.stays_below`: who follows it never leaves the directory from which it starts;
- `splitOn_append`, `below_seam_iff`: when a text that is put behind a directory stays below it.
-/

namespace PathName

variable {α : Type} {sep dot : α}

/-! ## Names in a row -/

/-- The names one after the other, each with a separator before it. -/
def render (sep : α) (names : List (List α)) : List α := names.flatMap (sep :: ·)

@[simp] theorem render_nil : render sep [] = [] := rfl

@[simp] theorem render_append (ns ms : List (List α)) : render sep (ns ++ ms) = render sep ns ++ render sep ms :=
  List.flatMap_append

@[simp] theorem render_singleton (n : List α) : render sep [n] = sep :: n := by simp [render]

variable {segments names ns D : List (List α)} {p s : List α}

theorem mem_render {c : α} : c ∈ render sep ns → c = sep ∨ ∃ n ∈ ns, c ∈ n := by
  intro h
  obtain ⟨n, hn, hc⟩ := List.mem_flatMap.mp h
  rcases List.mem_cons.mp hc with rfl | hc
  · exact .inl rfl
  · exact .inr ⟨n, hn, hc⟩

/-! ## Segments -/

variable [DecidableEq α]

/-- The directory itself, or the one above. -/
def IsDots (dot : α) (s : List α) : Prop := s = [dot] ∨ s = [dot, dot]

instance (dot : α) (s : List α) : Decidable (IsDots dot s) := inferInstanceAs (Decidable (_ ∨ _))

/-- What names an entry of a directory. -/
structure IsName (sep dot : α) (s : List α) : Prop where
  ne_nil : s ≠ []
  not_dots : ¬ IsDots dot s
  no_sep : sep ∉ s

/-- One segment further. Above the root there is the root. -/
def push (dot : α) (names : List (List α)) (s : List α) : List (List α) :=
  if s = [] ∨ s = [dot] then names else if s = [dot, dot] then names.dropLast else names ++ [s]

def resolve (dot : α) (names segments : List (List α)) : List (List α) := segments.foldl (push dot) names

/-- The path of the segments, behind the one with these names. It ends with a separator if the last segment is not a
name. -/
def normal (sep dot : α) (names segments : List (List α)) : List α :=
  render sep (resolve dot names segments) ++
    if (segments.getLastD []) = [] ∨ IsDots dot (segments.getLastD []) then [sep] else []

/-- **A path from the root without other segments than names.** The last one may be empty. -/
structure Clean (sep dot : α) (p : List α) : Prop where
  rooted : p.head? = some sep
  inner : ∀ s ∈ (p.splitOn sep).tail.dropLast, s ≠ []
  no_dots : ∀ s ∈ p.splitOn sep, ¬ IsDots dot s

/-! ## Names -/

theorem splitOn_render (h : ∀ n ∈ ns, sep ∉ n) : (render sep ns).splitOn sep = [] :: ns := by
  induction ns with
  | nil => simp
  | cons n ns ih =>
    obtain ⟨hn, hns⟩ := List.forall_mem_cons.mp h
    have hrest : (n ++ render sep ns).splitOn sep = n :: ns := by
      cases ns with
      | nil => simpa using List.splitOn_eq_singleton hn
      | cons m ms =>
        have ih := ih hns
        rw [show render sep (m :: ms) = sep :: (m ++ render sep ms) from rfl] at ih ⊢
        rw [List.splitOn_cons_eq_if_modifyHead, if_pos (by simp)] at ih
        rw [List.splitOn_append_cons_self_of_not_mem hn, (List.cons.inj ih).2]
    rw [show render sep (n :: ns) = sep :: (n ++ render sep ns) from rfl, List.splitOn_cons_eq_if_modifyHead,
      if_pos (by simp), hrest]

/-- What stands between the separators has none, and is a part of the path. -/
theorem mem_splitOn (h : s ∈ p.splitOn sep) : sep ∉ s ∧ s ⊆ p := by
  induction p generalizing s with
  | nil =>
    rw [List.splitOn_nil, List.mem_singleton] at h
    simp [h]
  | cons c p ih =>
    rw [List.splitOn_cons_eq_if_modifyHead] at h
    obtain ⟨t, ts, hs⟩ := List.exists_cons_of_ne_nil (List.splitOn_ne_nil sep p)
    rw [hs] at h ih
    split at h
    · rcases List.mem_cons.mp h with rfl | h
      · simp
      · exact (ih h).imp_right fun h => List.Subset.trans h (List.subset_cons_self _ _)
    · rename_i hc
      rcases List.mem_cons.mp h with rfl | h
      · obtain ⟨hsep, hsub⟩ := ih List.mem_cons_self
        have hne : sep ≠ c := fun h => hc (by simp [h])
        exact ⟨by simp [hsep, hne], List.cons_subset_cons _ hsub⟩
      · exact (ih (List.mem_cons_of_mem _ h)).imp_right fun h => List.Subset.trans h (List.subset_cons_self _ _)

theorem mem_push {n : List α} (h : n ∈ push dot names s) : n ∈ names ∨ n = s := by
  unfold push at h
  split at h
  · exact .inl h
  · split at h
    · exact .inl (List.dropLast_subset _ h)
    · simpa using h

theorem mem_resolve {n : List α} (h : n ∈ resolve dot names segments) : n ∈ names ∨ n ∈ segments := by
  induction segments generalizing names with
  | nil => exact .inl h
  | cons s segments ih =>
    rcases ih h with h | h
    · rcases mem_push h with h | rfl
      · exact .inl h
      · exact .inr List.mem_cons_self
    · exact .inr (List.mem_cons_of_mem _ h)

theorem isName_push (h : ∀ n ∈ names, IsName sep dot n) (hs : sep ∉ s) :
    ∀ n ∈ push dot names s, IsName sep dot n := by
  unfold push
  split
  · exact h
  · rename_i hself
    split
    · exact fun n hn => h n (List.dropLast_subset _ hn)
    · rename_i hup
      have hname : IsName sep dot s := ⟨fun h => hself (.inl h), fun h => h.elim (fun h => hself (.inr h)) hup, hs⟩
      simpa [or_imp, forall_and] using ⟨h, hname⟩

/-- **What the segments come to are names.** -/
theorem isName_resolve (h : ∀ n ∈ names, IsName sep dot n)
    (hs : ∀ s ∈ segments, sep ∉ s) : ∀ n ∈ resolve dot names segments, IsName sep dot n := by
  induction segments generalizing names with
  | nil => exact h
  | cons s segments ih =>
    obtain ⟨hs, hrest⟩ := List.forall_mem_cons.mp hs
    exact ih (isName_push h hs) hrest

/-! ## The path -/

theorem normal_cons (names : List (List α)) (s : List α) (h : segments ≠ []) :
    normal sep dot names (s :: segments) = normal sep dot (push dot names s) segments := by
  obtain ⟨t, ts, rfl⟩ := List.exists_cons_of_ne_nil h
  rfl

theorem normal_singleton (names : List (List α)) (s : List α) :
    normal sep dot names [s] = render sep (push dot names s) ++ if s = [] ∨ IsDots dot s then [sep] else [] := rfl

theorem mem_normal {c : α} (h : c ∈ normal sep dot names segments) :
    c = sep ∨ (∃ n ∈ names, c ∈ n) ∨ ∃ s ∈ segments, c ∈ s := by
  rcases List.mem_append.mp h with h | h
  · rcases mem_render h with h | ⟨n, hn, hc⟩
    · exact .inl h
    · exact .inr ((mem_resolve hn).imp (fun h => ⟨n, h, hc⟩) fun h => ⟨n, h, hc⟩)
  · split at h
    · exact .inl (List.mem_singleton.mp h)
    · cases h

theorem resolve_ne_nil
    (h : ¬ (segments.getLastD [] = [] ∨ IsDots dot (segments.getLastD []))) : resolve dot names segments ≠ [] := by
  rcases List.eq_nil_or_concat segments with rfl | ⟨init, s, rfl⟩
  · exact absurd (.inl rfl) h
  · rw [List.concat_eq_append] at h ⊢
    simp only [List.getLastD_concat, IsDots, not_or] at h
    obtain ⟨hne, hdot, hup⟩ := h
    simp [resolve, push, hne, hdot, hup]

theorem clean_render (h : ∀ n ∈ ns, IsName sep dot n) :
    (ns ≠ [] → Clean sep dot (render sep ns)) ∧ Clean sep dot (render sep ns ++ [sep]) := by
  constructor
  · intro hne
    have hsplit := splitOn_render fun n hn => (h n hn).no_sep
    obtain ⟨m, ms, rfl⟩ := List.exists_cons_of_ne_nil hne
    refine ⟨rfl, ?_, ?_⟩
    · rw [hsplit]
      exact fun s hs => (h s (List.dropLast_subset _ hs)).ne_nil
    · rw [hsplit]
      exact List.forall_mem_cons.mpr ⟨by simp [IsDots], fun s hs => (h s hs).not_dots⟩
  · have hends : ∀ n ∈ ns ++ [[]], sep ∉ n := by
      simpa [or_imp, forall_and] using fun n hn => (h n hn).no_sep
    have hsplit := splitOn_render hends
    rw [render_append, render_singleton] at hsplit
    refine ⟨by cases ns <;> rfl, ?_, ?_⟩
    · rw [hsplit, List.tail_cons, List.dropLast_concat]
      exact fun s hs => (h s hs).ne_nil
    · rw [hsplit]
      simp only [List.mem_cons, List.mem_append, List.not_mem_nil, or_false]
      rintro s (rfl | hs | rfl)
      · simp [IsDots]
      · exact (h s hs).not_dots
      · simp [IsDots]

/-- **A path that is written for segments is clean.** -/
theorem clean_normal (h : ∀ n ∈ names, IsName sep dot n)
    (hs : ∀ s ∈ segments, sep ∉ s) : Clean sep dot (normal sep dot names segments) := by
  have hnames := isName_resolve h hs
  unfold normal
  split
  · exact (clean_render hnames).2
  · rename_i hlast
    rw [List.append_nil]
    exact (clean_render hnames).1 (resolve_ne_nil hlast)

theorem normal_nil_cons {ss : List (List α)} (h : ss ≠ []) : normal sep dot [] ([] :: ss) = normal sep dot [] ss := by
  rw [normal_cons _ _ h]
  simp [push]

theorem push_name (hne : s ≠ []) (hdots : ¬ IsDots dot s) : push dot D s = D ++ [s] := by
  rw [IsDots, not_or] at hdots
  rw [push, if_neg (by rw [not_or]; exact ⟨hne, hdots.1⟩), if_neg hdots.2]

theorem resolve_names (h : ∀ n ∈ ns, IsName sep dot n) (names : List (List α)) :
    resolve dot names ns = names ++ ns := by
  induction ns generalizing names with
  | nil => simp [resolve]
  | cons n ns ih =>
    obtain ⟨hn, hns⟩ := List.forall_mem_cons.mp h
    have hrest := ih hns (names ++ [n])
    rw [resolve, List.foldl_cons, push_name hn.ne_nil hn.not_dots]
    simpa [resolve] using hrest

/-- **The path of the segments of a path that is written for segments is this path.** -/
theorem normal_normal (hs : ∀ s ∈ segments, sep ∉ s) :
    normal sep dot [] ((normal sep dot [] segments).splitOn sep) = normal sep dot [] segments := by
  have hnames := @isName_resolve α sep dot segments [] _ (by simp) hs
  generalize hns : resolve dot [] segments = ns at hnames
  have hsplit := splitOn_render fun n hn => (hnames n hn).no_sep
  by_cases hlast : segments.getLastD [] = [] ∨ IsDots dot (segments.getLastD [])
  · have hpath : normal sep dot [] segments = render sep (ns ++ [[]]) := by
      rw [normal, hns, if_pos hlast]
      simp
    have hends : ∀ n ∈ ns ++ [[]], sep ∉ n := by
      simpa [or_imp, forall_and] using fun n hn => (hnames n hn).no_sep
    rw [hpath, splitOn_render hends, normal_nil_cons (by simp), normal]
    have hresolve : resolve dot [] (ns ++ [[]]) = ns := by
      have hrest := resolve_names hnames []
      rw [resolve] at hrest
      rw [resolve, List.foldl_append, hrest]
      simp [push]
    simp [hresolve]
  · have hne : ns ≠ [] := hns ▸ resolve_ne_nil hlast
    have hpath : normal sep dot [] segments = render sep ns := by
      rw [normal, hns, if_neg hlast, List.append_nil]
    have hmem : ns.getLastD [] ∈ ns := by
      rw [List.getLastD_eq_getLast?, List.getLast?_eq_some_getLast hne, Option.getD_some]
      exact List.getLast_mem hne
    have hname := hnames _ hmem
    rw [hpath, hsplit, normal_nil_cons hne, normal, resolve_names hnames, List.nil_append,
      if_neg fun h => h.elim hname.ne_nil hname.not_dots, List.append_nil]

theorem getLast?_splitOn {u w : List α} (hw : sep ∉ w) : ((u ++ sep :: w).splitOn sep).getLast? = some w := by
  rw [List.splitOn_append_cons_self, List.splitOn_eq_singleton hw, List.getLast?_concat]

/-- **A path ends in a separator and `seg`, if `seg` is its last segment.** -/
theorem suffix_iff {seg : List α} (hp : sep ∈ p) (hseg : sep ∉ seg) :
    (sep :: seg) <:+ p ↔ (p.splitOn sep).getLast? = some seg := by
  constructor
  · rintro ⟨u, rfl⟩
    exact getLast?_splitOn hseg
  · intro h
    obtain ⟨v, w, hvw, hw⟩ := List.eq_append_cons_of_mem (List.mem_reverse.mpr hp)
    have hp' : p = w.reverse ++ sep :: v.reverse := by
      have := congrArg List.reverse hvw
      simpa using this
    have hv : sep ∉ v.reverse := fun h => hw (List.mem_reverse.mp h)
    rw [hp', getLast?_splitOn hv, Option.some.injEq] at h
    exact ⟨w.reverse, by rw [hp', h]⟩

/-! ## Other characters -/

theorem splitOn_map {f : α → α} (hsep : ∀ c, f c = sep ↔ c = sep) (p : List α) :
    (p.map f).splitOn sep = (p.splitOn sep).map (List.map f) := by
  induction p with
  | nil => simp
  | cons c p ih =>
    rw [List.map_cons, List.splitOn_cons_eq_if_modifyHead, List.splitOn_cons_eq_if_modifyHead, ih]
    by_cases hc : c = sep
    · simp [hc, (hsep sep).mpr rfl]
    · have hf : f c ≠ sep := fun h => hc ((hsep c).mp h)
      obtain ⟨s, ss, hs⟩ := List.exists_cons_of_ne_nil (List.splitOn_ne_nil sep p)
      simp [hc, hf, hs]

/-- **A path stays clean** when the characters other than separators and dots are changed. -/
theorem Clean.map {f : α → α} (hsep : ∀ c, f c = sep ↔ c = sep) (hdot : ∀ c, f c = dot ↔ c = dot)
    (h : Clean sep dot p) : Clean sep dot (p.map f) := by
  have hdots : ∀ s, IsDots dot (s.map f) → IsDots dot s := by
    rintro s (h | h)
    · obtain ⟨c, rfl, hc⟩ := List.map_eq_singleton_iff.mp h
      exact .inl (by rw [(hdot c).mp hc])
    · obtain ⟨c, s', rfl, hc, h⟩ := List.map_eq_cons_iff.mp h
      obtain ⟨d, rfl, hd⟩ := List.map_eq_singleton_iff.mp h
      exact .inr (by rw [(hdot c).mp hc, (hdot d).mp hd])
  refine ⟨?_, ?_, ?_⟩
  · rw [List.head?_map, h.rooted, Option.map_some, (hsep sep).mpr rfl]
  · rw [splitOn_map hsep, ← List.map_tail, ← List.map_dropLast]
    intro s hs
    obtain ⟨t, ht, rfl⟩ := List.mem_map.mp hs
    simpa using h.inner t ht
  · rw [splitOn_map hsep]
    simp only [List.mem_map, forall_exists_index, and_imp, forall_apply_eq_imp_iff₂]
    exact fun s hs hd => h.no_dots s hs (hdots s hd)

/-! ## Following a path -/

/-- The depth below a directory in which the segments end, if they never lead above it. -/
def depth (dot : α) : Nat → List (List α) → Option Nat
  | n, [] => some n
  | n, s :: segments =>
    if s = [] ∨ s = [dot] then depth dot n segments
    else if s = [dot, dot] then
      match n with
      | 0 => none
      | n + 1 => depth dot n segments
    else depth dot (n + 1) segments

theorem depth_isSome (h : ∀ s ∈ segments, ¬ IsDots dot s) (n : Nat) : (depth dot n segments).isSome := by
  induction segments generalizing n with
  | nil => rfl
  | cons s segments ih =>
    obtain ⟨hs, hrest⟩ := List.forall_mem_cons.mp h
    simp only [IsDots, not_or] at hs
    unfold depth
    split
    · exact ih hrest n
    · rw [if_neg hs.2]
      exact ih hrest (n + 1)

/-- **A clean path stays below the directory from which it starts**, whatever it is put behind. -/
theorem Clean.stays_below (h : Clean sep dot (sep :: p)) : (depth dot 0 (p.splitOn sep)).isSome := by
  refine depth_isSome (fun s hs => h.no_dots s ?_) 0
  rw [List.splitOn_cons_eq_if_modifyHead, if_pos (by simp)]
  exact List.mem_cons_of_mem _ hs

/-! ## Directories -/

/-- The names that a path comes to, from the directory `cwd`, or from the root if it begins with a separator. -/
def directory (sep dot : α) (cwd : List (List α)) (p : List α) : List (List α) :=
  resolve dot (if p.head? = some sep then [] else cwd) (p.splitOn sep)

theorem resolve_append (names ss ts : List (List α)) :
    resolve dot names (ss ++ ts) = resolve dot (resolve dot names ss) ts := List.foldl_append

omit [DecidableEq α] in
theorem head?_append_cons (h : p ≠ []) (q : List α) : (p ++ q).head? = p.head? := by
  cases p with
  | nil => exact absurd rfl h
  | cons c p => rfl

theorem directory_append_sep {cwd : List (List α)} (h : p ≠ []) (q : List α) :
    directory sep dot cwd (p ++ sep :: q) = resolve dot (directory sep dot cwd p) (q.splitOn sep) := by
  unfold directory
  rw [head?_append_cons h, List.splitOn_append_cons_self, resolve_append]

theorem directory_concat_append (cwd : List (List α)) (p q : List α) :
    directory sep dot cwd (p ++ [sep] ++ q) = resolve dot (directory sep dot cwd (p ++ [sep])) (q.splitOn sep) := by
  have hself : ∀ names : List (List α), resolve dot names [[]] = names := by simp [resolve, push]
  unfold directory
  rw [head?_append_cons (by simp) q, List.append_assoc, List.singleton_append, List.splitOn_append_cons_self,
    List.splitOn_append_cons_self, resolve_append, resolve_append, List.splitOn_nil, hself]

/-! ## Two paths put together -/

/-- The last segment, which goes on in a text that is put behind the path. -/
def lastSegment (sep : α) (p : List α) : List α := (p.splitOn sep).getLastD []

def initSegments (sep : α) (p : List α) : List (List α) := (p.splitOn sep).dropLast

/-- What goes on with the last segment of a path before it. -/
def firstSegment (sep : α) (p : List α) : List α := (p.splitOn sep).headD []

/-- The segments behind the first one. -/
def tailSegments (sep : α) (p : List α) : List (List α) := (p.splitOn sep).tail

theorem splitOn_eq_init (sep : α) (p : List α) : p.splitOn sep = initSegments sep p ++ [lastSegment sep p] := by
  unfold initSegments lastSegment
  rw [List.getLastD_eq_getLast?, List.getLast?_eq_some_getLast (List.splitOn_ne_nil sep p), Option.getD_some,
    List.dropLast_append_getLast]

theorem splitOn_eq_tail (p : List α) : p.splitOn sep = firstSegment sep p :: tailSegments sep p := by
  unfold firstSegment tailSegments
  obtain ⟨s, ss, hs⟩ := List.exists_cons_of_ne_nil (List.splitOn_ne_nil sep p)
  rw [hs]
  rfl

/-- **The segments of two paths put together**: the last and the first one become one. -/
theorem splitOn_append (sep : α) (p q : List α) : (p ++ q).splitOn sep =
    initSegments sep p ++ (lastSegment sep p ++ firstSegment sep q) :: tailSegments sep q := by
  induction p with
  | nil => exact splitOn_eq_tail q
  | cons c p ih =>
    have hp := splitOn_eq_init sep p
    rw [List.cons_append, List.splitOn_cons_eq_if_modifyHead, ih]
    unfold initSegments lastSegment at hp ⊢
    rw [List.splitOn_cons_eq_if_modifyHead]
    generalize p.splitOn sep = ss at hp ⊢
    by_cases hc : c = sep
    · rw [if_pos (by simpa using hc), if_pos (by simpa using hc)]
      cases ss with
      | nil => simp at hp
      | cons s ss => rfl
    · rw [if_neg (by simpa using hc), if_neg (by simpa using hc)]
      match ss with
      | [] => simp at hp
      | [s] => rfl
      | s :: t :: ss => rfl

theorem lastSegment_concat (u : List α) : lastSegment sep (u ++ [sep]) = [] := by
  rw [lastSegment, List.getLastD_eq_getLast?, getLast?_splitOn List.not_mem_nil]
  rfl

theorem tailSegments_append (p q : List α) : tailSegments sep q ⊆ (p ++ q).splitOn sep := by
  rw [splitOn_append]
  exact List.Subset.trans (List.subset_cons_self _ _) (List.subset_append_right _ _)

theorem resolve_no_dots (h : ∀ s ∈ segments, ¬ IsDots dot s) (names : List (List α)) :
    resolve dot names segments = names ++ segments.filter (· ≠ []) := by
  induction segments generalizing names with
  | nil => simp [resolve]
  | cons s segments ih =>
    obtain ⟨hs, hrest⟩ := List.forall_mem_cons.mp h
    rw [IsDots, not_or] at hs
    have hstep : resolve dot names (s :: segments) = resolve dot (push dot names s) segments := rfl
    rw [hstep, ih hrest, push]
    by_cases hempty : s = []
    · rw [if_pos (.inl hempty), List.filter_cons_of_neg (by simpa using hempty)]
    · rw [if_neg (by rw [not_or]; exact ⟨hempty, hs.1⟩), if_neg hs.2, List.filter_cons_of_pos (by simpa using hempty),
        List.append_assoc, List.singleton_append]

omit [DecidableEq α] in
theorem prefix_dropLast_append : D <+: D.dropLast ++ names ↔ D = [] ∨ names.head? = D.getLast? := by
  rcases List.eq_nil_or_concat' D with rfl | ⟨E, d, rfl⟩
  · simp
  · rw [List.dropLast_concat, List.prefix_append_right_inj, List.getLast?_concat]
    cases names with
    | nil => simp
    | cons n names =>
      rw [List.cons_prefix_cons, List.head?_cons, Option.some.injEq]
      simp only [List.nil_prefix, and_true, List.append_eq_nil_iff, List.cons_ne_nil, and_false, false_or]
      exact eq_comm

/-- **The seam is safe** between the last segment `t` of a directory, below the names `D`, and the first segment `s` of what
is put behind it, with further segments `tail`: `s` is empty, or `t` leads upwards, so that the two are a name together,
or `t` is no name and the two together do not lead upwards, unless they come back. -/
def SafeSeam (dot : α) (D : List (List α)) (t s : List α) (tail : List (List α)) : Prop :=
  s = [] ∨ t = [dot, dot] ∨
    (t = [] ∨ t = [dot]) ∧ (t ++ s = [dot, dot] → D = [] ∨ tail.find? (· ≠ []) = D.getLast?)

instance (dot : α) (D : List (List α)) (t s : List α) (tail : List (List α)) : Decidable (SafeSeam dot D t s tail) :=
  inferInstanceAs (Decidable (_ ∨ _ ∨ _ ∧ (_ → _)))

theorem push_self (h : s = [] ∨ s = [dot]) : push dot D s = D := if_pos h

theorem push_up (D : List (List α)) : push dot D [dot, dot] = D.dropLast := by
  rw [push, if_neg (by simp), if_pos rfl]

/-- **What is put behind a directory stays below it, if and only if the seam is safe.** -/
theorem below_seam_iff {tail : List (List α)} {t : List α} (h : ∀ u ∈ tail, ¬ IsDots dot u) :
    push dot D t <+: resolve dot (push dot D (t ++ s)) tail ↔ SafeSeam dot D t s tail := by
  rw [resolve_no_dots h, SafeSeam, ← List.head?_filter]
  generalize tail.filter (· ≠ []) = names
  by_cases hs : s = []
  · subst hs
    simp
  by_cases hup : t = [dot, dot]
  · subst hup
    have hname : push dot D ([dot, dot] ++ s) = D ++ [[dot, dot] ++ s] := push_name (by simp) (by simp [IsDots, hs])
    rw [push_up, hname, List.append_assoc]
    simp only [true_or, or_true, iff_true]
    exact (List.dropLast_prefix D).trans (List.prefix_append D _)
  by_cases hself : t = [] ∨ t = [dot]
  · have hne : t ++ s ≠ [] := by simp [hs]
    rw [push_self hself]
    simp only [hs, hup, hself, false_or, true_and]
    by_cases hdots : t ++ s = [dot, dot]
    · rw [hdots, push_up, prefix_dropLast_append]
      simp
    · simp only [hdots, false_implies, iff_true]
      by_cases hdot : t ++ s = [dot]
      · rw [push_self (.inr hdot)]
        exact List.prefix_append D names
      · rw [push_name hne (by rw [IsDots, not_or]; exact ⟨hdot, hdots⟩), List.append_assoc]
        exact List.prefix_append D _
  · have hself' := hself
    rw [not_or] at hself'
    have hname : ¬ IsDots dot t := by rw [IsDots, not_or]; exact ⟨hself'.2, hup⟩
    have hglued : ¬ IsDots dot (t ++ s) := by
      rintro (hglued | hglued)
      · have hlen := congrArg List.length hglued
        have ht := List.length_pos_iff.mpr hself'.1
        have hs := List.length_pos_iff.mpr hs
        rw [List.length_append, List.length_singleton] at hlen
        omega
      · match t, hself'.1 with
        | [c], _ =>
          rw [List.singleton_append, List.cons.injEq] at hglued
          exact hself'.2 (by rw [hglued.1])
        | c :: d :: t, _ =>
          simp [hs] at hglued
    rw [push_name hself'.1 hname, push_name (by simp [hs]) hglued, List.append_assoc, List.prefix_append_right_inj]
    simp [hs, hup, hself]

end PathName
