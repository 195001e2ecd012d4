import Lighttpd.Array.Map
import Lighttpd.Request.HostGrammar
import Lighttpd.Response.Fields
import Lighttpd.Uri.Target
import Mathlib.Data.List.GetD

/-!
# The document root of a host (`mod_evhost.c`)

`evhost.path-pattern` has placeholders for the parts of the host of a request.

- `parseHost_eq`: the two scans from the right find the domain and the labels;
- `docRoot_expands`: the document root is the pattern with the parts of the host.
-/

namespace Lighttpd.Evhost
open Request (Headers DataString)

/-! ## The source -/

/-- The loop of `mod_evhost_parse_pattern`; `lit` is what stands between `pos` and `ptr`. `none`: the loop steps over the
NUL. -/
def parseLoop (lit : Bytes) : Bytes → Option (List Bytes)
  | [] => some (if lit ≠ [] then [lit] else [])
  | c :: s =>
    if c = chr '%' then
      match s with
      | [] => none
      | x :: s => (parseLoop [] s).map fun pieces => lit :: [c, x] :: pieces
    else parseLoop (lit ++ [c]) s

def modEvhostParsePattern (pathPiecesRaw : Bytes) : Option (List Bytes) := parseLoop [] (cstr pathPiecesRaw)

/-- The search for the domain and the top-level label: `ptr` and `colon` behind the loop. -/
def domainLoop (authority : Bytes) : Nat → Nat → Bool → Nat × Nat
  | 0, colon, _ => (0, colon)
  | ptr + 1, colon, first =>
    if authority.getD (ptr + 1) 0 = chr '.' then
      if first then domainLoop authority ptr colon false else (ptr + 1, colon)
    else if authority.getD (ptr + 1) 0 = chr ':' then domainLoop authority ptr (ptr + 1) true
    else domainLoop authority ptr colon first

/-- `buffer_copy_string_len` from `ptr` to `colon`. -/
def slice (authority : Bytes) (ptr colon : Nat) : Bytes := (authority.drop ptr).take (colon - ptr)

def partKey (i : Nat) : Bytes := chr '%' :: liUtostrn i

def insertPart (host : Headers) (i : Nat) (value : Bytes) : Headers := (host.insertUnique ⟨partKey i, value⟩).1

/-- The search for the labels: `colon`, `i` and the array behind the loop. -/
def labelLoop (authority : Bytes) : Nat → Nat → Nat → Headers → Nat × Nat × Headers
  | 0, colon, i, host => (colon, i, host)
  | ptr + 1, colon, i, host =>
    if authority.getD (ptr + 1) 0 = chr '.' then
      if ptr + 1 ≠ colon - 1 then
        -- is something between the dots
        labelLoop authority ptr (ptr + 1) (i + 1) (insertPart host i (slice authority (ptr + 2) colon))
      else labelLoop authority ptr (ptr + 1) i host
    else labelLoop authority ptr colon i host

/-- What stands in front of the last dot that is found. -/
def lastLabel (authority : Bytes) : Nat × Nat × Headers → Headers
  | (colon, i, host) =>
    -- if the . is not the first character of the hostname
    if colon ≠ 0 then insertPart host i (slice authority 0 colon) else host

def modEvhostParseHost (authority : Bytes) : Headers :=
  let (ptr, colon) := domainLoop authority authority.length authority.length true
  -- if we stopped at a dot, skip the dot
  let ptr := if authority.getD ptr 0 = chr '.' then ptr + 1 else ptr
  let host := insertPart [] 0 (slice authority ptr colon)
  -- if the : is not the start of the authority, go on parsing the hostname
  if colon ≠ 0 then lastLabel authority (labelLoop authority (colon - 1) colon 1 host) else host

def expandPiece (authority : Bytes) (parsedHost : Headers) (piece : Bytes) : Bytes :=
  if piece.getD 0 0 = chr '%' then
    if piece.getD 1 0 = chr '%' then ascii "%"
    else if piece.getD 1 0 = chr '_' then
      match (cstr authority).idxOf? (chr ':') with
      | none => authority
      | some colon => authority.take colon
    else
      match parsedHost.getElement (cstr piece) with
      | some ds => ds.value
      | none => []
  else piece

def buildDocRoot (pathPieces : List Bytes) (authority : Bytes) : Bytes :=
  Uri.appendSlash (pathPieces.flatMap (expandPiece authority (modEvhostParseHost authority)))

/-- `mod_evhost_uri_handler`: `physical.doc_root` afterwards. `isDir` says what `stat_cache_get_entry` finds. -/
def modEvhostUriHandler (isDir : Bytes → Bool) (pathPieces : List Bytes) (authority docRoot : Bytes) : Bytes :=
  if authority = [] then docRoot
  else if pathPieces.length = 0 then docRoot
  else if isDir (buildDocRoot pathPieces authority) then buildDocRoot pathPieces authority
  else docRoot

/-! ## What a pattern means -/

/-- A host name, with its labels from the right. -/
def hostname : List Bytes → Bytes
  | [] => []
  | [label] => label
  | label :: labels => hostname labels ++ chr '.' :: label

/-- The part of the host `name` with these labels that a placeholder stands for. -/
def part (name : Bytes) (labels : List Bytes) (x : Byte) : Bytes :=
  if x = chr '%' then ascii "%"
  else if x = chr '_' then name
  else if x = chr '0' then hostname (labels.take 2)
  else if lightIsdigit x then (labels[x.toNat - 49]?).getD []
  else []

/-- The pattern with the parts in the places of the placeholders. -/
def expand (part : Byte → Bytes) : Bytes → Bytes
  | [] => []
  | [c] => [c]
  | c :: x :: s => if c = chr '%' then part x ++ expand part s else c :: expand part (x :: s)

def placeholders : Bytes → List Byte
  | [] => []
  | [_] => []
  | c :: x :: s => if c = chr '%' then x :: placeholders s else placeholders (x :: s)

/-- The pattern ends in a `%` that is no part of a placeholder. -/
def endsInPercent : Bytes → Bool
  | [] => false
  | [c] => c == chr '%'
  | c :: x :: s => if c = chr '%' then endsInPercent s else endsInPercent (x :: s)

/-- **A host name with its labels from the right**, perhaps with a dot at the end, and a port. -/
structure HostPort (authority name : Bytes) (labels : List Bytes) (dot : Bool) : Prop where
  ne : labels ≠ []
  label : ∀ label ∈ labels, label ≠ [] ∧ chr '.' ∉ label ∧ chr ':' ∉ label ∧ (0 : Byte) ∉ label
  text : name = hostname labels ++ if dot then [chr '.'] else []
  port : ∃ port, authority = name ++ port ∧ Request.isPort port = true

/-! ## The pattern -/

variable {s lit : Bytes} {pieces : List Bytes}

theorem parseLoop_isSome_iff : (parseLoop lit s).isSome = !endsInPercent s := by
  induction s using endsInPercent.induct generalizing lit with
  | case1 => rfl
  | case2 c => by_cases h : c = chr '%' <;> simp [parseLoop, endsInPercent, h]
  | case3 x s ih => simp [parseLoop, endsInPercent, ih]
  | case4 c x s h ih => rw [parseLoop, if_neg h, ih, endsInPercent, if_neg h]

theorem expandPiece_literal {authority : Bytes} {parsedHost : Headers} (h : chr '%' ∉ lit) :
    expandPiece authority parsedHost lit = lit := by
  unfold expandPiece
  refine if_neg fun hget => ?_
  cases lit with
  | nil => exact absurd hget (by decide)
  | cons c lit => exact h (List.mem_cons.mpr (.inl hget.symm))

/-- **The pieces give the pattern with the value of each placeholder in its place.** -/
theorem parseLoop_expand {authority : Bytes} {parsedHost : Headers}
    (hlit : chr '%' ∉ lit) (h : parseLoop lit s = some pieces) :
    pieces.flatMap (expandPiece authority parsedHost) =
      lit ++ expand (fun x => expandPiece authority parsedHost [chr '%', x]) s := by
  induction s using endsInPercent.induct generalizing lit pieces with
  | case1 =>
    cases h
    rw [expand, List.append_nil]
    split
    · rw [List.flatMap_singleton, expandPiece_literal hlit]
    · rename_i hnil
      rw [not_not.mp hnil]
      rfl
  | case2 c =>
    by_cases hc : c = chr '%'
    · rw [parseLoop, if_pos hc] at h
      cases h
    · rw [parseLoop, if_neg hc] at h
      cases h
      have hmem : chr '%' ∉ lit ++ [c] := by simp [hlit, Ne.symm hc]
      rw [if_pos (by simp), List.flatMap_singleton, expandPiece_literal hmem]
      rfl
  | case3 x s ih =>
    rw [parseLoop, if_pos rfl] at h
    obtain ⟨rest, hrest, rfl⟩ := Option.map_eq_some_iff.mp h
    rw [List.flatMap_cons, List.flatMap_cons, expandPiece_literal hlit, ih (by simp) hrest, expand, if_pos rfl]
    rfl
  | case4 c x s hc ih =>
    rw [parseLoop, if_neg hc] at h
    have hmem : chr '%' ∉ lit ++ [c] := by simp [hlit, Ne.symm hc]
    rw [ih hmem h, expand, if_neg hc, List.append_assoc, List.singleton_append]

theorem expand_congr {part part' : Byte → Bytes} (h : ∀ x ∈ placeholders s, part x = part' x) :
    expand part s = expand part' s := by
  induction s using endsInPercent.induct with
  | case1 => rfl
  | case2 c => rfl
  | case3 x s ih =>
    rw [placeholders, if_pos rfl, List.forall_mem_cons] at h
    rw [expand, expand, if_pos rfl, if_pos rfl, h.1, ih h.2]
  | case4 c x s hc ih =>
    rw [placeholders, if_neg hc] at h
    rw [expand, expand, if_neg hc, if_neg hc, ih h]

/-! ## The array of the parts -/

def parts (values : List Bytes) : Headers := values.zipIdx.map fun p => ⟨partKey p.2, p.1⟩

theorem partKey_eq_iff {i j : Nat} : caselessCompare (partKey i) (partKey j) = 0 ↔ i = j := by
  refine ⟨fun h => ?_, fun h => caselessCompare_eq.mpr (by rw [h])⟩
  have hfold := caselessCompare_eq.mp h
  unfold partKey foldKey at hfold
  rw [List.map_cons, List.map_cons, List.cons.injEq] at hfold
  have hkey := hfold.2
  rw [← foldKey, ← foldKey, DataArray.foldKey_liUtostrn, DataArray.foldKey_liUtostrn] at hkey
  exact liUtostrn_inj hkey

theorem getElement_zipIdx (values : List Bytes) (k i : Nat) :
    Headers.getElement ((values.zipIdx k).map fun p => ⟨partKey p.2, p.1⟩) (partKey (k + i)) =
      values[i]?.map fun v => ⟨partKey (k + i), v⟩ := by
  induction values generalizing k i with
  | nil => rfl
  | cons v values ih =>
    rw [List.zipIdx_cons, List.map_cons, Headers.getElement_cons]
    cases i with
    | zero => exact if_pos (Iff.mpr partKey_eq_iff rfl)
    | succ i =>
      rw [if_neg (by rw [partKey_eq_iff]; omega), List.getElem?_cons_succ, Nat.add_comm i, ← Nat.add_assoc]
      exact ih (k + 1) i

theorem getElement_parts (values : List Bytes) (i : Nat) :
    (parts values).getElement (partKey i) = values[i]?.map fun v => ⟨partKey i, v⟩ := by
  have h := getElement_zipIdx values 0 i
  rwa [Nat.zero_add] at h

theorem insertPart_parts (values : List Bytes) (value : Bytes) :
    insertPart (parts values) values.length value = parts (values ++ [value]) := by
  have hnone : (parts values).getElement (partKey values.length) = none := by
    rw [getElement_parts, List.getElem?_eq_none (Nat.le_refl _)]
    rfl
  unfold insertPart Headers.insertUnique
  dsimp only
  rw [Headers.getIndex_eq_none hnone]
  simp [parts, List.zipIdx_append]

/-! ## The scans from the right -/

section Scans

variable {a u v : Bytes} {ptr n m i : Nat} {b : Bool} {host : Headers}

theorem labelLoop_skip (h : ∀ j, m < j → j ≤ ptr → a.getD j 0 ≠ chr '.') (hm : m ≤ ptr) :
    labelLoop a ptr n i host = labelLoop a m n i host := by
  induction ptr with
  | zero => rw [Nat.le_zero.mp hm]
  | succ ptr ih =>
    rcases Nat.lt_or_eq_of_le hm with hlt | rfl
    · rw [labelLoop, if_neg (h (ptr + 1) hlt (Nat.le_refl _))]
      exact ih (fun j hj hle => h j hj (by omega)) (by omega)
    · rfl

theorem domainLoop_skip (h : ∀ j, m < j → j ≤ ptr → a.getD j 0 ≠ chr '.' ∧ a.getD j 0 ≠ chr ':') (hm : m ≤ ptr) :
    domainLoop a ptr n b = domainLoop a m n b := by
  induction ptr with
  | zero => rw [Nat.le_zero.mp hm]
  | succ ptr ih =>
    rcases Nat.lt_or_eq_of_le hm with hlt | rfl
    · obtain ⟨hdot, hcolon⟩ := h (ptr + 1) hlt (Nat.le_refl _)
      rw [domainLoop, if_neg hdot, if_neg hcolon]
      exact ih (fun j hj hle => h j hj (by omega)) (by omega)
    · rfl

theorem domainLoop_colon (h : ∀ j, 0 < j → j ≤ ptr → a.getD j 0 ≠ chr ':') :
    (domainLoop a ptr n b).2 = n := by
  induction ptr generalizing b with
  | zero => rfl
  | succ ptr ih =>
    have ih := fun b => ih (b := b) fun j hj hle => h j hj (by omega)
    rw [domainLoop]
    split
    · split
      · exact ih false
      · rfl
    · rw [if_neg (h (ptr + 1) (Nat.succ_pos _) (Nat.le_refl _))]
      exact ih b

theorem getD_mem {j : Nat} (h : j < a.length) : a.getD j 0 ∈ a := by
  rw [List.getD_eq_getElem _ _ h]
  exact List.getElem_mem h

theorem getD_front {j : Nat} (h : j < u.length) : (u ++ v).getD j 0 ∈ u := by
  rw [List.getD_append _ _ _ _ h]
  exact getD_mem h

theorem getD_label {c : Byte} {w : Bytes} {j : Nat} (h : u.length < j) (hle : j ≤ u.length + w.length) :
    (u ++ c :: w ++ v).getD j 0 ∈ w := by
  obtain ⟨k, rfl⟩ : ∃ k, j = u.length + (k + 1) := ⟨j - u.length - 1, by omega⟩
  rw [List.append_assoc, List.getD_append_right _ _ _ _ (by omega), Nat.add_sub_cancel_left, List.cons_append,
    List.getD_cons_succ]
  exact getD_front (by omega)

theorem getD_separator {c : Byte} {w : Bytes} : (u ++ c :: w ++ v).getD u.length 0 = c := by
  rw [List.append_assoc, List.getD_append_right _ _ _ _ (Nat.le_refl _), Nat.sub_self]
  rfl

theorem slice_middle (u w v : Bytes) :
    slice (u ++ w ++ v) u.length (u.length + w.length) = w := by
  unfold slice
  rw [List.append_assoc, List.drop_left, Nat.add_sub_cancel_left, List.take_left]

theorem slice_label (u : Bytes) (c : Byte) (w v : Bytes) :
    slice (u ++ c :: w ++ v) (u.length + 1) (u ++ c :: w).length = w := by
  have h := slice_middle (u ++ [c]) w v
  rw [List.length_append, List.length_singleton] at h
  rw [List.length_append, List.length_cons, Nat.add_comm w.length, ← Nat.add_assoc]
  rwa [List.append_assoc u, List.singleton_append] at h

theorem slice_start (w v : Bytes) : slice (w ++ v) 0 w.length = w := by
  have h := slice_middle [] w v
  rwa [List.nil_append, List.length_nil, Nat.zero_add] at h

/-! ## Host names -/

variable {w w' : Bytes} {labels x : List Bytes}

theorem hostname_cons (h : labels ≠ []) : hostname (w :: labels) = hostname labels ++ chr '.' :: w := by
  cases labels with
  | nil => exact absurd rfl h
  | cons _ _ => rfl

theorem length_hostname (hne : labels ≠ []) (h : ∀ l ∈ labels, l ≠ []) : 0 < (hostname labels).length := by
  cases labels with
  | nil => exact absurd rfl hne
  | cons w labels =>
    have hlabel := List.length_pos_iff.mpr (h w List.mem_cons_self)
    cases labels with
    | nil => exact hlabel
    | cons _ _ =>
      rw [hostname_cons (List.cons_ne_nil _ _), List.length_append, List.length_cons]
      omega

theorem hostname_not_mem {c : Byte} (hc : c ≠ chr '.') (h : ∀ l ∈ labels, c ∉ l) : c ∉ hostname labels := by
  induction labels with
  | nil => exact List.not_mem_nil
  | cons w labels ih =>
    rw [List.forall_mem_cons] at h
    by_cases hlast : labels = []
    · subst hlast
      exact h.1
    · rw [hostname_cons hlast, List.mem_append, List.mem_cons, not_or, not_or]
      exact ⟨ih h.2, hc, h.1⟩

/-- **The scan for the labels** of a host name: each label is inserted, from the right. -/
theorem labelLoop_hostname (hne : labels ≠ []) (h : ∀ l ∈ labels, l ≠ [] ∧ chr '.' ∉ l) :
    lastLabel (hostname labels ++ v) (labelLoop (hostname labels ++ v) ((hostname labels).length - 1)
      (hostname labels).length x.length (parts x)) = parts (x ++ labels) := by
  induction labels generalizing v x with
  | nil => exact absurd rfl hne
  | cons w labels ih =>
    rw [List.forall_mem_cons] at h
    have hlabel := List.length_pos_iff.mpr h.1.1
    by_cases hlast : labels = []
    · subst hlast
      have hskip : ∀ j, 0 < j → j ≤ w.length - 1 → (w ++ v).getD j 0 ≠ chr '.' :=
        fun j _ hle heq => h.1.2 (heq ▸ getD_front (by omega))
      rw [hostname, labelLoop_skip hskip (Nat.zero_le _), labelLoop, lastLabel, if_pos (by omega), slice_start,
        insertPart_parts]
    · have hpos := length_hostname hlast fun l hl => (h.2 l hl).1
      obtain ⟨d, hd⟩ : ∃ d, (hostname labels).length = d + 1 := ⟨_, (Nat.sub_add_cancel hpos).symm⟩
      have hskip : ∀ j, d + 1 < j → j ≤ (hostname labels ++ chr '.' :: w).length - 1 →
          (hostname labels ++ chr '.' :: w ++ v).getD j 0 ≠ chr '.' := by
        intro j hj hle heq
        rw [List.length_append, List.length_cons] at hle
        exact h.1.2 (heq ▸ getD_label (by omega) (by omega))
      have hdot := getD_separator (u := hostname labels) (c := chr '.') (w := w) (v := v)
      have hslice := slice_label (hostname labels) (chr '.') w v
      have ih := ih (v := chr '.' :: w ++ v) (x := x ++ [w]) hlast h.2
      have hlen : d + 1 ≤ (hostname labels ++ chr '.' :: w).length - 1 := by
        rw [List.length_append, List.length_cons]
        omega
      have hbetween : d + 1 ≠ (hostname labels ++ chr '.' :: w).length - 1 := by
        rw [List.length_append, List.length_cons]
        omega
      rw [hd] at hdot hslice ih
      rw [← List.append_assoc, List.length_append, List.length_singleton, Nat.add_sub_cancel] at ih
      rw [hostname_cons hlast, labelLoop_skip hskip hlen, labelLoop, if_pos hdot, if_pos hbetween, hslice,
        insertPart_parts, ih, List.append_assoc, List.singleton_append]

theorem domainLoop_label {d : Nat} (hd : u.length = d + 1) (h : chr '.' ∉ w) (h' : chr ':' ∉ w) :
    domainLoop (u ++ chr '.' :: w ++ v) ((u ++ chr '.' :: w).length - 1) n b =
      if b then domainLoop (u ++ chr '.' :: w ++ v) d n false else (d + 1, n) := by
  have hlen : (u ++ chr '.' :: w).length = d + 1 + (w.length + 1) := by
    rw [List.length_append, List.length_cons, hd]
  have hdot := getD_separator (u := u) (c := chr '.') (w := w) (v := v)
  rw [hd] at hdot
  rw [domainLoop_skip (m := d + 1) (fun j hj hle => ?_) (by omega), domainLoop, if_pos hdot]
  have hmem := getD_label (v := v) (c := chr '.') (u := u) (w := w) (j := j) (by omega) (by omega)
  exact ⟨fun heq => h (heq ▸ hmem), fun heq => h' (heq ▸ hmem)⟩

theorem domainLoop_first (h : chr '.' ∉ w) (h' : chr ':' ∉ w) (hm : m < w.length) :
    domainLoop (w ++ v) m n b = (0, n) := by
  refine domainLoop_skip (m := 0) (fun j _ hle => ?_) (Nat.zero_le _)
  have hmem := getD_front (u := w) (v := v) (j := j) (by omega)
  exact ⟨fun heq => h (heq ▸ hmem), fun heq => h' (heq ▸ hmem)⟩

theorem getD_hostname (hne : labels ≠ []) (h : ∀ l ∈ labels, l ≠ [] ∧ chr '.' ∉ l) :
    (hostname labels ++ v).getD 0 0 ≠ chr '.' := by
  induction labels generalizing v with
  | nil => exact absurd rfl hne
  | cons w labels ih =>
    rw [List.forall_mem_cons] at h
    by_cases hlast : labels = []
    · subst hlast
      exact fun heq => h.1.2 (heq ▸ getD_front (List.length_pos_iff.mpr h.1.1))
    · rw [hostname_cons hlast, List.append_assoc]
      exact ih hlast h.2

/-- **The scan for the domain** of a host name finds its last two labels. -/
theorem domainLoop_hostname (hne : labels ≠ []) (h : ∀ l ∈ labels, l ≠ [] ∧ chr '.' ∉ l ∧ chr ':' ∉ l) :
    ∃ ptr, domainLoop (hostname labels ++ v) ((hostname labels).length - 1) n true = (ptr, n) ∧
      slice (hostname labels ++ v)
        (if (hostname labels ++ v).getD ptr 0 = chr '.' then ptr + 1 else ptr) (hostname labels).length =
        hostname (labels.take 2) := by
  have hstart := getD_hostname (v := v) hne fun l hl => ⟨(h l hl).1, (h l hl).2.1⟩
  cases labels with
  | nil => exact absurd rfl hne
  | cons w labels =>
    rw [List.forall_mem_cons] at h
    have hlabel := List.length_pos_iff.mpr h.1.1
    cases labels with
    | nil =>
      refine ⟨0, domainLoop_first h.1.2.1 h.1.2.2 (Nat.sub_lt hlabel Nat.zero_lt_one), ?_⟩
      rw [if_neg hstart]
      exact slice_start w v
    | cons w' labels =>
      rw [List.forall_mem_cons] at h
      have hlabel' := List.length_pos_iff.mpr h.2.1.1
      cases labels with
      | nil =>
        refine ⟨0, ?_, ?_⟩
        · show domainLoop (w' ++ chr '.' :: w ++ v) ((w' ++ chr '.' :: w).length - 1) n true = _
          rw [domainLoop_label (Nat.sub_add_cancel hlabel').symm h.1.2.1 h.1.2.2, if_pos rfl, List.append_assoc]
          exact domainLoop_first h.2.1.2.1 h.2.1.2.2 (Nat.sub_lt hlabel' Nat.zero_lt_one)
        · rw [if_neg hstart]
          exact slice_start _ v
      | cons w'' labels =>
        have hpos := length_hostname (List.cons_ne_nil w'' labels) fun l hl => (h.2.2 l hl).1
        obtain ⟨d, hd⟩ : ∃ d, (hostname (w'' :: labels)).length = d + 1 := ⟨_, (Nat.sub_add_cancel hpos).symm⟩
        have hname : hostname (w :: w' :: w'' :: labels) =
            hostname (w'' :: labels) ++ chr '.' :: w' ++ chr '.' :: w := rfl
        have hpos' : 0 < (hostname (w'' :: labels) ++ chr '.' :: w').length := by
          rw [List.length_append]
          omega
        refine ⟨d + 1, ?_, ?_⟩
        · rw [hname]
          rw [domainLoop_label (Nat.sub_add_cancel hpos').symm h.1.2.1 h.1.2.2, if_pos rfl, List.append_assoc]
          exact domainLoop_label hd h.2.1.2.1 h.2.1.2.2
        · have hdot := getD_separator (u := hostname (w'' :: labels)) (c := chr '.')
            (w := w' ++ chr '.' :: w) (v := v)
          have hslice := slice_label (hostname (w'' :: labels)) (chr '.') (w' ++ chr '.' :: w) v
          rw [hd] at hdot hslice
          rw [hname, List.append_assoc (hostname _), List.cons_append, if_pos hdot]
          exact hslice

theorem domainLoop_port {name port : Bytes} (hname : name ≠ []) (hport : Request.isPort port = true) :
    domainLoop (name ++ port) (name ++ port).length (name ++ port).length true =
      domainLoop (name ++ port) (name.length - 1) name.length true := by
  obtain ⟨d, hd⟩ : ∃ d, name.length = d + 1 := ⟨_, (Nat.sub_add_cancel (List.length_pos_iff.mpr hname)).symm⟩
  cases port with
  | nil =>
    have hnul : name.getD (d + 1) 0 = 0 := List.getD_eq_default _ _ (by omega)
    rw [List.append_nil, hd, domainLoop, hnul, if_neg (by decide), if_neg (by decide)]
    rfl
  | cons c digits =>
    rw [Request.isPort, Bool.and_eq_true, beq_iff_eq] at hport
    obtain ⟨rfl, hdigits⟩ := hport
    have hcolon := getD_separator (u := name) (c := chr ':') (w := digits) (v := [])
    rw [List.append_nil, hd] at hcolon
    rw [domainLoop_skip (m := d + 1) (fun j hj hle => ?_) (by rw [List.length_append]; omega), domainLoop, hcolon,
      if_neg (by decide), if_pos rfl, hd]
    · rfl
    · rcases Nat.lt_or_eq_of_le hle with hlt | rfl
      · have hmem := getD_label (u := name) (c := chr ':') (w := digits) (v := []) (j := j) (by omega)
          (by rw [List.length_append, List.length_cons] at hlt; omega)
        rw [List.append_nil] at hmem
        have hdigit := List.all_eq_true.mp hdigits _ hmem
        exact ⟨fun heq => absurd (heq ▸ hdigit) (by decide), fun heq => absurd (heq ▸ hdigit) (by decide)⟩
      · rw [List.getD_eq_default _ _ (Nat.le_refl _)]
        decide

end Scans

/-! ## The parts of a host -/

variable {authority name : Bytes} {labels : List Bytes} {dot : Bool}

theorem parseHost_scan {port : Bytes} (hname : name ≠ []) (hcolon : chr ':' ∉ name) (hport : Request.isPort port = true) :
    ∃ ptr domain, domainLoop (name ++ port) (name.length - 1) name.length true = (ptr, name.length) ∧
      domain = slice (name ++ port) (if (name ++ port).getD ptr 0 = chr '.' then ptr + 1 else ptr) name.length ∧
      modEvhostParseHost (name ++ port) =
        lastLabel (name ++ port) (labelLoop (name ++ port) (name.length - 1) name.length 1 (parts [domain])) := by
  have hpos := List.length_pos_iff.mpr hname
  have hstays : (domainLoop (name ++ port) (name.length - 1) name.length true).2 = name.length :=
    domainLoop_colon fun j _ hle heq => hcolon (heq ▸ getD_front (by omega))
  refine ⟨(domainLoop (name ++ port) (name.length - 1) name.length true).1, _, Prod.ext rfl hstays, rfl, ?_⟩
  unfold modEvhostParseHost
  rw [domainLoop_port hname hport]
  dsimp only
  rw [hstays, if_pos (Nat.pos_iff_ne_zero.mp hpos)]
  exact congrArg (fun host => lastLabel (name ++ port) (labelLoop (name ++ port) (name.length - 1) name.length 1 host))
    (insertPart_parts [] _)

/-- **The array of the parts**: the domain, and the labels from the right. -/
theorem parseHost_eq (h : HostPort authority name labels dot) :
    ∃ domain, modEvhostParseHost authority = parts (domain :: labels) ∧
      (dot = false → domain = hostname (labels.take 2)) := by
  obtain ⟨port, rfl, hport⟩ := h.port
  have hchars : ∀ l ∈ labels, l ≠ [] ∧ chr '.' ∉ l ∧ chr ':' ∉ l :=
    fun l hl => ⟨(h.label l hl).1, (h.label l hl).2.1, (h.label l hl).2.2.1⟩
  have hdots : ∀ l ∈ labels, l ≠ [] ∧ chr '.' ∉ l := fun l hl => ⟨(hchars l hl).1, (hchars l hl).2.1⟩
  have hpos := length_hostname h.ne fun l hl => (hchars l hl).1
  have hcolon : chr ':' ∉ hostname labels := hostname_not_mem (by decide) fun l hl => (hchars l hl).2.2
  cases dot with
  | false =>
    obtain rfl : name = hostname labels := by rw [h.text, if_neg Bool.false_ne_true, List.append_nil]
    obtain ⟨ptr, domain, hloop, hdomain, hparse⟩ := parseHost_scan (List.length_pos_iff.mp hpos) hcolon hport
    obtain ⟨ptr', hloop', hslice⟩ := domainLoop_hostname (v := port) (n := (hostname labels).length) h.ne hchars
    obtain rfl : ptr = ptr' := congrArg Prod.fst (hloop.symm.trans hloop')
    refine ⟨domain, ?_, fun _ => hdomain.trans hslice⟩
    rw [hparse]
    exact labelLoop_hostname (x := [domain]) h.ne hdots
  | true =>
    obtain rfl : name = hostname labels ++ [chr '.'] := by rw [h.text, if_pos rfl]
    have hcolon' : chr ':' ∉ hostname labels ++ [chr '.'] := by
      rw [List.mem_append, List.mem_singleton, not_or]
      exact ⟨hcolon, by decide⟩
    obtain ⟨-, domain, -, -, hparse⟩ := parseHost_scan (by simp) hcolon' hport
    obtain ⟨d, hd⟩ : ∃ d, (hostname labels).length = d + 1 := ⟨_, (Nat.sub_add_cancel hpos).symm⟩
    have hdot := getD_separator (u := hostname labels) (c := chr '.') (w := []) (v := port)
    have hlabels := labelLoop_hostname (v := [chr '.'] ++ port) (x := [domain]) h.ne hdots
    refine ⟨domain, hparse.trans ?_, fun hfalse => absurd hfalse Bool.true_eq_false.mp⟩
    rw [hd] at hdot hlabels
    rw [List.length_append, List.length_singleton, hd, Nat.add_sub_cancel, labelLoop, if_pos hdot, if_neg (by omega)]
    rw [← List.append_assoc] at hlabels
    exact hlabels

/-! ## The placeholders -/

theorem HostPort.not_mem (h : HostPort authority name labels dot) {c : Byte} (hc : c ≠ chr '.')
    (hlabel : ∀ l ∈ labels, c ∉ l) : c ∉ name := by
  rw [h.text, List.mem_append, not_or]
  refine ⟨hostname_not_mem hc hlabel, ?_⟩
  split
  · rwa [List.mem_singleton]
  · exact List.not_mem_nil

theorem HostPort.ne_nil (h : HostPort authority name labels dot) : authority ≠ [] := by
  obtain ⟨port, rfl, -⟩ := h.port
  have hpos := length_hostname h.ne fun l hl => (h.label l hl).1
  rw [h.text]
  intro heq
  have hlen := congrArg List.length heq
  simp only [List.length_append, List.length_nil] at hlen
  omega

theorem HostPort.name_eq (h : HostPort authority name labels dot) :
    (match (cstr authority).idxOf? (chr ':') with
    | none => authority
    | some colon => authority.take colon) = name := by
  have hcolon := h.not_mem (by decide) fun l hl => (h.label l hl).2.2.1
  have hnul := h.not_mem (by decide) fun l hl => (h.label l hl).2.2.2
  obtain ⟨port, rfl, hport⟩ := h.port
  cases port with
  | nil =>
    rw [List.append_nil, cstr_eq_self hnul, List.idxOf?_eq_none_iff.mpr hcolon]
  | cons c digits =>
    rw [Request.isPort, Bool.and_eq_true, beq_iff_eq] at hport
    obtain ⟨rfl, hdigits⟩ := hport
    have hall : (0 : Byte) ∉ name ++ chr ':' :: digits := by
      rw [List.mem_append, List.mem_cons, not_or, not_or]
      exact ⟨hnul, by decide, fun hmem => absurd (List.all_eq_true.mp hdigits _ hmem) (by decide)⟩
    rw [cstr_eq_self hall, idxOf?_append_cons hcolon]
    exact List.take_left

theorem partKey_digit {c : Byte} (h : lightIsdigit c = true) : [chr '%', c] = partKey (c.toNat - 48) := by
  have hall : ∀ k : Fin 10, liUtostrn k.val = [UInt8.ofNat (k.val + 48)] := by decide
  have hrange : 48 ≤ c.toNat ∧ c.toNat ≤ 57 := by simpa [lightIsdigit, UInt8.le_iff_toNat_le] using h
  rw [partKey, hall ⟨c.toNat - 48, by omega⟩, Nat.sub_add_cancel hrange.1, UInt8.ofNat_toNat]

theorem getElement_other {c : Byte} (h : lightIsdigit c = false) (x : List Bytes) :
    (parts x).getElement (cstr [chr '%', c]) = none := by
  have hlower : ∀ d : Byte, lightIsdigit (toLower d) = lightIsdigit d := fun d => by
    rcases toLower_cases d with hd | ⟨hupper, hletter⟩
    · rw [hd]
    · grind [lightIsdigit]
  unfold parts
  generalize 0 = k
  induction x generalizing k with
  | nil => rfl
  | cons w x ih =>
    rw [List.zipIdx_cons, List.map_cons, Headers.getElement_cons, if_neg, ih]
    intro heq
    have hfold : foldKey (cstr [chr '%', c]) = toLower (chr '%') :: foldKey (liUtostrn k) := caselessCompare_eq.mp heq
    rw [DataArray.foldKey_liUtostrn] at hfold
    by_cases hnul : c = 0
    · subst hnul
      exact (liUtostrn_spec k).1 (List.cons.inj hfold.symm).2
    · rw [cstr_eq_self (by simpa [Ne.symm hnul] using (by decide : (0 : Byte) ≠ chr '%'))] at hfold
      have hkey : [toLower c] = liUtostrn k := (List.cons.inj hfold).2
      have hdigit := (liUtostrn_spec k).2.1 (toLower c) (hkey ▸ List.mem_singleton_self _)
      have hsame : lightIsdigit (toLower c) = true := by simpa [lightIsdigit, Netstring.isDigit] using hdigit
      rw [hlower, h] at hsame
      cases hsame

/-- **What a placeholder gives.** -/
theorem expandPiece_part (h : HostPort authority name labels dot) (x : Byte) (hx : dot = true → x ≠ chr '0') :
    expandPiece authority (modEvhostParseHost authority) [chr '%', x] = part name labels x := by
  obtain ⟨domain, hparse, hdomain⟩ := parseHost_eq h
  have hpercent : [chr '%', x].getD 0 0 = chr '%' := rfl
  have hget : [chr '%', x].getD 1 0 = x := rfl
  unfold expandPiece part
  rw [hparse, if_pos hpercent, hget, h.name_eq]
  refine ite_congr rfl (fun _ => rfl) fun _ => ite_congr rfl (fun _ => rfl) fun _ => ?_
  cases hdigit : lightIsdigit x with
  | false =>
    rw [getElement_other hdigit, if_neg (by rintro rfl; exact absurd hdigit (by decide)), if_neg Bool.false_ne_true]
  | true =>
    have hnul : (0 : Byte) ∉ [chr '%', x] := by
      rintro hmem
      rw [List.mem_cons, List.mem_singleton] at hmem
      rcases hmem with hmem | rfl
      · exact absurd hmem (by decide)
      · exact absurd hdigit (by decide)
    have hrange : 48 ≤ x.toNat ∧ x.toNat ≤ 57 := by simpa [lightIsdigit, UInt8.le_iff_toNat_le] using hdigit
    rw [cstr_eq_self hnul, partKey_digit hdigit, getElement_parts, if_pos rfl]
    by_cases hzero : x = chr '0'
    · subst hzero
      cases dot with
      | false => exact hdomain rfl
      | true => exact absurd rfl (hx rfl)
    · obtain ⟨k, hk⟩ : ∃ k, x.toNat = 49 + k := by
        refine ⟨x.toNat - 49, ?_⟩
        have hne : x.toNat ≠ 48 := fun heq => hzero (UInt8.toNat_inj.mp heq)
        omega
      rw [if_neg hzero, hk, Nat.add_sub_cancel_left, show 49 + k - 48 = k + 1 by omega, List.getElem?_cons_succ]
      cases labels[k]? <;> rfl

/-! ## The hosts of requests -/

theorem hostname_snoc (labels : List Bytes) (w : Bytes) :
    hostname (labels ++ [w]) = if labels = [] then w else w ++ chr '.' :: hostname labels := by
  induction labels with
  | nil => rfl
  | cons v labels ih =>
    rw [List.cons_append, hostname_cons (by simp), ih, if_neg (List.cons_ne_nil v labels)]
    split
    · rename_i hnil
      rw [hnil]
      rfl
    · rename_i hne
      rw [hostname_cons hne, List.append_assoc, List.cons_append]

theorem hostname_splitOn (s : Bytes) : hostname (s.splitOn (chr '.')).reverse = s := by
  induction s with
  | nil => rfl
  | cons c s ih =>
    by_cases hc : c = chr '.'
    · subst hc
      rw [Request.splitOn_dot, List.reverse_cons, hostname_snoc, ih, if_neg]
      · rfl
      · rw [List.reverse_eq_nil_iff]
        exact List.splitOn_ne_nil _ _
    · obtain ⟨w, ws, hs⟩ := Request.splitOn_cases s
      rw [hs, List.reverse_cons, hostname_snoc] at ih
      rw [Request.splitOn_char hc hs, List.reverse_cons, hostname_snoc]
      split at ih
      · rename_i hnil
        rw [if_pos hnil, ih]
      · rename_i hne
        rw [if_neg hne, List.cons_append, ih]

/-- The buffer behind `request_check_hostname`: a dot at the end of the host is stripped. -/
theorem checkHostname_strips {b a : Bytes} (h : Request.requestCheckHostname b = (true, a))
    (hopen : b.head? ≠ some (chr '[')) :
    a = Request.stripDot (b.takeWhile (· ≠ chr ':')) ++ b.dropWhile (· ≠ chr ':') := by
  have hlen : (b.idxOf? (chr ':')).getD b.length = (b.takeWhile (· ≠ chr ':')).length := by
    by_cases hcolon : chr ':' ∈ b
    · obtain ⟨u, v, rfl, hu⟩ := List.eq_append_cons_of_mem hcolon
      obtain ⟨hidx, htake, -⟩ := Request.take_hostLen (p := v) hu
      rw [hidx, htake]
      rfl
    · have htake : b.takeWhile (· ≠ chr ':') = b := by
        refine List.takeWhile_eq_self_iff.mpr fun c hc => ?_
        rw [decide_eq_true_eq]
        rintro rfl
        exact hcolon hc
      rw [htake, List.idxOf?_eq_none_iff.mpr hcolon]
      rfl
  have hb : b.takeWhile (· ≠ chr ':') ++ b.dropWhile (· ≠ chr ':') = b := List.takeWhile_append_dropWhile
  unfold Request.requestCheckHostname at h
  rw [if_neg hopen] at h
  dsimp only at h
  rw [hlen] at h
  generalize b.takeWhile (· ≠ chr ':') = u at h hb ⊢
  generalize b.dropWhile (· ≠ chr ':') = v at h hb ⊢
  subst hb
  split at h
  · cases h
  · split at h
    · cases h
    · rename_i hne
      rcases List.eq_nil_or_concat' u with rfl | ⟨w, c, rfl⟩
      · exact absurd rfl hne
      · have hget : (w ++ [c] ++ v).getD ((w ++ [c]).length - 1) 0 = c := by simp
        have htake : (w ++ [c] ++ v).take ((w ++ [c]).length - 1) = w := by simp
        rw [hget, htake, List.drop_left] at h
        split at h
        · rename_i hc
          subst hc
          rw [Request.stripDot_concat]
          split at h
          · cases h
          · exact (Prod.mk.inj h).2.symm
        · rename_i hc
          rw [Request.stripDot_eq_self (by simpa using hc)]
          exact (Prod.mk.inj h).2.symm

/-- **The authority of a request that passes the strict check** is a host name with a port, or begins with a bracket. -/
theorem checkHostname_hostPort {b a : Bytes} (h : Request.requestCheckHostname b = (true, a))
    (hopen : b.head? ≠ some (chr '[')) (hnul : (0 : Byte) ∉ b) : ∃ name labels dot, HostPort a name labels dot := by
  have haccept : Request.looseHostport b = true := by rw [← Request.requestCheckHostname_eq, h]
  have hport : (0 : Byte) ∉ b.dropWhile (· ≠ chr ':') := fun hmem => hnul (List.dropWhile_subset _ hmem)
  rw [Request.looseHostport, if_neg hopen, Bool.and_eq_true, cstr_eq_self hport] at haccept
  have hstrips := checkHostname_strips h hopen
  generalize b.takeWhile (· ≠ chr ':') = u at haccept hstrips
  have hlabels := (Bool.and_eq_true _ _ ▸ haccept.1 : _ ∧ _).1
  have hchar : ∀ c : Byte, Request.labelChar c = true → c ≠ chr '.' ∧ c ≠ chr ':' ∧ c ≠ 0 := by
    intro c hc
    refine ⟨?_, ?_, ?_⟩ <;> · rintro rfl; exact absurd hc (by decide)
  refine ⟨Request.stripDot u, ((Request.stripDot (Request.stripDot u)).splitOn (chr '.')).reverse,
    decide ((Request.stripDot u).getLast? = some (chr '.')), ?_, fun l hl => ?_, ?_, _, hstrips, haccept.2⟩
  · rw [Ne, List.reverse_eq_nil_iff]
    exact List.splitOn_ne_nil _ _
  · have hl := List.all_eq_true.mp hlabels l (List.mem_reverse.mp hl)
    rw [Request.looseLabel, Bool.and_eq_true] at hl
    have hall := List.all_eq_true.mp hl.1
    refine ⟨?_, fun hm => (hchar _ (hall _ hm)).1 rfl, fun hm => (hchar _ (hall _ hm)).2.1 rfl,
      fun hm => (hchar _ (hall _ hm)).2.2 rfl⟩
    rintro rfl
    exact absurd hl.2 (by decide)
  · rw [hostname_splitOn]
    generalize Request.stripDot u = v
    unfold Request.stripDot
    by_cases hdot : v.getLast? = some (chr '.')
    · obtain ⟨w, rfl⟩ := List.getLast?_eq_some_iff.mp hdot
      simp
    · simp [hdot]

theorem parseLoop_ne_nil {s lit : Bytes} {pieces : List Bytes} (h : parseLoop lit s = some pieces) (hne : lit ++ s ≠ []) :
    pieces ≠ [] := by
  induction s generalizing lit pieces with
  | nil =>
    cases h
    rw [List.append_nil] at hne
    rw [if_pos hne]
    exact List.cons_ne_nil _ _
  | cons c s ih =>
    by_cases hc : c = chr '%'
    · cases s with
      | nil =>
        rw [parseLoop, if_pos hc] at h
        cases h
      | cons x s =>
        rw [parseLoop, if_pos hc] at h
        obtain ⟨rest, -, rfl⟩ := Option.map_eq_some_iff.mp h
        exact List.cons_ne_nil _ _
    · cases s with
      | nil =>
        rw [parseLoop, if_neg hc] at h
        exact ih h (by simp)
      | cons x s =>
        rw [parseLoop, if_neg hc] at h
        exact ih h (by simp)

/-- **The document root of a host is the pattern with the parts of the host**: `%%` is a percent sign, `%_` the host without
its port, `%0` its domain and top-level label, `%1` to `%9` are its labels from the right, and other placeholders are left
out. The pattern is not read behind its end. The domain of a host with a dot at its end is left open. -/
theorem docRoot_expands (isDir : Bytes → Bool) (pattern : Bytes) (hpattern : endsInPercent (cstr pattern) = false) :
    ∃ pathPieces, modEvhostParsePattern pattern = some pathPieces ∧
      ∀ authority name labels dot docRoot, HostPort authority name labels dot →
        (dot = true → chr '0' ∉ placeholders (cstr pattern)) →
        modEvhostUriHandler isDir pathPieces authority docRoot =
          if cstr pattern = [] then docRoot
          else if isDir (Uri.appendSlash (expand (part name labels) (cstr pattern))) then
            Uri.appendSlash (expand (part name labels) (cstr pattern))
          else docRoot := by
  have hsome : (modEvhostParsePattern pattern).isSome = true := by
    rw [modEvhostParsePattern, parseLoop_isSome_iff, hpattern]
    rfl
  obtain ⟨pathPieces, hparse⟩ := Option.isSome_iff_exists.mp hsome
  refine ⟨pathPieces, hparse, fun authority name labels dot docRoot h hdot => ?_⟩
  have hbuild : buildDocRoot pathPieces authority = Uri.appendSlash (expand (part name labels) (cstr pattern)) := by
    unfold buildDocRoot
    rw [parseLoop_expand List.not_mem_nil hparse, List.nil_append]
    refine congrArg Uri.appendSlash (expand_congr fun x hx => expandPiece_part h x fun hd heq => ?_)
    exact hdot hd (heq ▸ hx)
  unfold modEvhostUriHandler
  rw [if_neg h.ne_nil, hbuild]
  by_cases hempty : cstr pattern = []
  · have hnil : pathPieces = [] := by
      rw [modEvhostParsePattern, hempty] at hparse
      cases hparse
      rfl
    rw [if_pos hempty, if_pos (by rw [hnil]; rfl)]
  · have hne := parseLoop_ne_nil hparse (by simpa using hempty)
    rw [if_neg hempty, if_neg fun hlen => hne (List.length_eq_zero_iff.mp hlen)]

/-- `www.example.com:8080` -/
theorem docRoot_expands_sample :
    modEvhostUriHandler (fun _ => true) [ascii "/srv/", ascii "%0", ascii "/", ascii "%3"]
      (ascii "www.example.com:8080") [] = ascii "/srv/example.com/www/" := by
  obtain ⟨pathPieces, hparse, h⟩ := docRoot_expands (fun _ => true) (ascii "/srv/%0/%3") (by decide)
  have hpieces : modEvhostParsePattern (ascii "/srv/%0/%3") = some [ascii "/srv/", ascii "%0", ascii "/", ascii "%3"] := by
    decide +kernel
  rw [hpieces, Option.some.injEq] at hparse
  subst hparse
  rw [h (ascii "www.example.com:8080") (ascii "www.example.com") [ascii "com", ascii "example", ascii "www"] false []
    ⟨by decide, by decide, by decide, ascii ":8080", by decide, by decide⟩
    fun hdot => absurd hdot Bool.false_ne_true]
  decide

/-- **What the pattern does not give**: another placeholder is dropped, a bracketed address is cut at its first colon, the
domain of a host with a dot at its end is its last label, and a lone `%` is read past the end. -/
theorem docRoot_differs :
    (modEvhostParsePattern (ascii "/srv/%a/")).map
      (fun pieces => modEvhostUriHandler (fun _ => true) pieces (ascii "example.com") []) = some (ascii "/srv//") ∧
    (modEvhostParsePattern (ascii "/srv/%_/")).map
      (fun pieces => modEvhostUriHandler (fun _ => true) pieces (ascii "[2001:db8::1]:80") []) = some (ascii "/srv/[2001/") ∧
    (modEvhostParsePattern (ascii "/srv/%0/")).map
      (fun pieces => modEvhostUriHandler (fun _ => true) pieces (ascii "www.example.com.") []) = some (ascii "/srv/com./") ∧
    modEvhostParsePattern (ascii "/srv/%") = none := by
  refine ⟨?_, ?_, ?_, ?_⟩ <;> decide +kernel

end Lighttpd.Evhost
