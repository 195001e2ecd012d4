import Lighttpd.Request.Headers
import Lighttpd.Lib.Lines
import Mathlib.Data.List.TakeWhile

/-!
# The fields of a header block

The reference reading of a header block: its lines, the fields on these lines with their continuation lines, and the
value of a field as it is announced. It does not depend on the parser. Beside it stand the facts about names and about
the header array that relate the two.
-/

namespace Lighttpd

namespace Request

/-! ## Lines and fields -/

abbrev blockLines (block : Bytes) : List Bytes := Lines.lines (chr '\r') (chr '\n') block

/-- A field: its name, the value on its first line, and the lines that continue it. -/
structure Field where
  name : Bytes
  value : Bytes
  folds : List Bytes
deriving DecidableEq, Repr

/-- `s` without the blanks around it. -/
def trim (s : Bytes) : Bytes := (s.dropWhile isWs).rdropWhile isWs

/-- A line that starts with a blank continues the field before it. -/
def isFold (line : Bytes) : Bool := line.head?.any isWs

def parseLine (line : Bytes) : Field :=
  ⟨(line.takeWhile (· ≠ chr ':')).rdropWhile isWs, trim (line.dropWhile (· ≠ chr ':')).tail, []⟩

/-- A line behind the lines whose fields are `fs`, the last one first. -/
def addLine (fs : List Field) (line : Bytes) : List Field :=
  if isFold line then
    match fs with
    | [] => []
    | f :: fs => { f with folds := f.folds ++ [line] } :: fs
  else parseLine line :: fs

def headerLines (block : Bytes) : List Bytes := (blockLines block).tail.takeWhile fun line => !line.isEmpty

/-- **The fields of a header block.** -/
def blockFields (block : Bytes) : List Field := ((headerLines block).foldl addLine []).reverse

/-- What the continuation lines add to the value of a field: they are joined by blanks. -/
def Field.continuation (f : Field) : Bytes := f.folds.flatMap fun line => chr ' ' :: trim line

def Field.fullValue (f : Field) : Bytes := trim (f.value ++ f.continuation)

/-- Names are the same without regard to case. -/
def Field.Named (f : Field) (name : String) : Prop := caselessCompare (ascii name) f.name = 0

instance (f : Field) (name : String) : Decidable (f.Named name) := inferInstanceAs (Decidable (_ = _))

/-- The number that a decimal numeral stands for. -/
def decimalValue (s : Bytes) : Option Nat :=
  if s ≠ [] ∧ s.all lightIsdigit then some (s.foldl (fun n c => 10 * n + (c.toNat - 48)) 0) else none

/-! ## Blanks -/

variable {key a b : Bytes} {α : Type}

/-- `rdropWhile` of two parts. -/
theorem rdropWhile_append (p : α → Bool) (a b : List α) :
    (a ++ b).rdropWhile p = if b.all p then a.rdropWhile p else a ++ b.rdropWhile p := by
  unfold List.rdropWhile
  rw [List.reverse_append, List.dropWhile_append]
  by_cases hb : b.all p
  · rw [if_pos hb]
    have hnil : b.reverse.dropWhile p = [] := by
      rw [List.dropWhile_eq_nil_iff]
      intro x hx
      exact List.all_eq_true.mp hb x (List.mem_reverse.mp hx)
    rw [hnil]
    rfl
  · rw [if_neg hb]
    have hne : (b.reverse.dropWhile p).isEmpty = false := by
      rw [List.isEmpty_eq_false_iff, ne_eq, List.dropWhile_eq_nil_iff]
      intro h
      exact hb (List.all_eq_true.mpr fun x hx => h x (List.mem_reverse.mpr hx))
    rw [hne]
    simp

theorem rdropWhile_eq_self {p : α → Bool} {s : List α} (h : ∀ x ∈ s, p x = false) : s.rdropWhile p = s := by
  rw [List.rdropWhile_eq_self_iff]
  intro hl
  rw [h _ (List.getLast_mem hl)]
  decide

theorem dropWhile_eq_self {p : α → Bool} {s : List α} (h : ∀ x, s.head? = some x → p x = false) :
    s.dropWhile p = s := by
  cases s with
  | nil => rfl
  | cons x s => rw [List.dropWhile_cons, h x rfl]; rfl

theorem isWs_colon : isWs (chr ':') = false := by decide

/-- **The line that a name, blanks, a colon, blanks and a value make.** -/
theorem parseLine_eq {ws ws' value : Bytes} (hkey : ∀ c ∈ key, isWs c = false ∧ c ≠ chr ':')
    (hws : ∀ c ∈ ws, isWs c = true) (hws' : ∀ c ∈ ws', isWs c = true)
    (hvalue : ∀ c, value.head? = some c → isWs c = false) :
    parseLine (key ++ ws ++ chr ':' :: (ws' ++ value)) = ⟨key, value.rdropWhile isWs, []⟩ := by
  have hname : ∀ c ∈ key ++ ws, decide (c ≠ chr ':') = true := by
    intro c hc
    rw [decide_eq_true_eq]
    rcases List.mem_append.mp hc with hc | hc
    · exact (hkey c hc).2
    · rintro rfl
      exact absurd (hws _ hc) (by rw [isWs_colon]; decide)
  have hblank : ws.all isWs = true := List.all_eq_true.mpr hws
  unfold parseLine trim
  rw [List.takeWhile_append_of_pos hname, List.dropWhile_append_of_pos hname]
  rw [List.takeWhile_cons_of_neg (by decide), List.append_nil, rdropWhile_append, if_pos hblank,
    rdropWhile_eq_self fun c hc => (hkey c hc).1]
  rw [List.dropWhile_cons_of_neg (by decide), List.tail_cons, List.dropWhile_append_of_pos hws',
    dropWhile_eq_self hvalue]

/-! ## Names -/

theorem caselessCompare_congr {a' : Bytes} (b : Bytes) (h : a.map toLower = a'.map toLower) :
    caselessCompare a b = caselessCompare a' b := by
  induction a generalizing a' b with
  | nil =>
    obtain rfl := List.map_eq_nil_iff.mp h.symm
    rfl
  | cons x a ih =>
    cases a' with
    | nil => cases h
    | cons x' a' =>
      obtain ⟨hx, ha⟩ := List.cons.inj h
      cases b with
      | nil => rfl
      | cons y b => simp only [caselessCompare, hx, ih b ha]

theorem caselessCompare_eq_zero : caselessCompare a b = 0 ↔ a.map toLower = b.map toLower := by
  induction a generalizing b with
  | nil => cases b <;> simp [caselessCompare]
  | cons x a ih =>
    cases b with
    | nil => simp [caselessCompare]
    | cons y b =>
      rw [caselessCompare, List.map_cons, List.map_cons, List.cons.injEq]
      by_cases h : toLower x = toLower y
      · rw [if_pos h, ih]
        simp [h]
      · rw [if_neg h]
        have hne : (toLower x).toNat ≠ (toLower y).toNat := fun hn => h (UInt8.toNat_inj.mp hn)
        constructor
        · intro h0
          omega
        · intro h'
          exact absurd h'.1 h

theorem caselessCompare_symm (h : caselessCompare a b = 0) : caselessCompare b a = 0 := by
  rw [caselessCompare_eq_zero] at h ⊢
  exact h.symm

theorem caselessCompare_trans {c : Bytes} (h : caselessCompare a b = 0) (h' : caselessCompare b c = 0) :
    caselessCompare a c = 0 := by
  rw [caselessCompare_eq_zero] at h h' ⊢
  exact h.trans h'

theorem findName_congr {key' : Bytes} (h : caselessCompare key key' = 0) (names : List (Bytes × FieldName)) :
    findName key names = findName key' names := by
  rw [caselessCompare_eq_zero] at h
  induction names with
  | nil => rfl
  | cons n names ih =>
    rw [findName, findName, caselessCompare_congr n.1 h, ih]

theorem findName_sound {names : List (Bytes × FieldName)} {f : FieldName}
    (h : findName key names = some f) : ∃ name, (name, f) ∈ names ∧ caselessCompare key name = 0 := by
  induction names with
  | nil => cases h
  | cons n names ih =>
    rw [findName] at h
    split at h
    · rename_i h0
      cases h
      exact ⟨n.1, List.mem_cons_self, h0⟩
    · split at h
      · obtain ⟨name, hmem, h0⟩ := ih h
        exact ⟨name, List.mem_cons_of_mem _ hmem, h0⟩
      · cases h

/-- **A field is found under its name only, and under its name always.** -/
theorem findName_iff {name : Bytes} {f : FieldName} (hmem : (name, f) ∈ fieldNames) :
    findName key fieldNames = some f ↔ caselessCompare name key = 0 := by
  constructor
  · intro h
    have hunique : ∀ p ∈ fieldNames, ∀ q ∈ fieldNames, p.2 = q.2 → p.1 = q.1 := by decide
    obtain ⟨n, hn, h0⟩ := findName_sound h
    obtain rfl : n = name := hunique _ hn _ hmem rfl
    exact caselessCompare_symm h0
  · intro h
    have hfound : ∀ p ∈ fieldNames, findName p.1 fieldNames = some p.2 := by decide
    rw [← findName_congr h]
    exact hfound _ hmem

theorem findName_contentLength (key : Bytes) :
    findName key fieldNames = some .contentLength ↔ caselessCompare (ascii "Content-Length") key = 0 :=
  findName_iff (by simp [fieldNames])

theorem named_ne {name : Bytes} (h : findName name fieldNames ≠ findName key fieldNames) :
    caselessCompare name key ≠ 0 := fun h0 => h (findName_congr h0 fieldNames)

/-- `Transfer-Encoding` is not looked at while it is read. -/
theorem findName_transferEncoding (h : caselessCompare (ascii "Transfer-Encoding") key = 0) :
    findName key fieldNames = none := by
  rw [← findName_congr h]
  decide

/-! ## The header array -/

namespace Headers

variable {hs hs' : Headers} {n : Nat}

theorem getIndex_congr (h : hs'.map DataString.key = hs.map DataString.key) (key : Bytes) :
    hs'.getIndex key = hs.getIndex key := by
  have hmap : ∀ hs : Headers, hs.getIndex key =
      (hs.map DataString.key).findIdx? fun k => caselessCompare key k == 0 := by
    intro hs
    rw [getIndex, List.findIdx?_map]
    rfl
  rw [hmap, hmap, h]

theorem getIndex_some (h : hs.getIndex key = some n) : ∃ ds, hs[n]? = some ds ∧ caselessCompare key ds.key = 0 := by
  obtain ⟨hn, hp, -⟩ := List.findIdx?_eq_some_iff_getElem.mp h
  exact ⟨hs[n], List.getElem?_eq_getElem hn, by simpa using hp⟩

theorem getIndex_inj {key' : Bytes} (h : hs.getIndex key = some n) (h' : hs.getIndex key' = some n) :
    caselessCompare key key' = 0 := by
  obtain ⟨ds, hds, h0⟩ := getIndex_some h
  obtain ⟨ds', hds', h0'⟩ := getIndex_some h'
  obtain rfl : ds = ds' := Option.some.inj (hds.symm.trans hds')
  exact caselessCompare_trans h0 (caselessCompare_symm h0')

theorem getIndex_caseless {key' : Bytes} (h : caselessCompare key key' = 0) (hs : Headers) :
    hs.getIndex key = hs.getIndex key' := by
  rw [caselessCompare_eq_zero] at h
  unfold getIndex
  congr 1
  funext ds
  rw [caselessCompare_congr ds.key h]

theorem getIndex_push (hs : Headers) (ds : DataString) (key : Bytes) :
    getIndex (hs ++ [ds]) key =
      (hs.getIndex key).or (if caselessCompare key ds.key = 0 then some hs.length else none) := by
  unfold getIndex
  rw [List.findIdx?_append]
  by_cases h : caselessCompare key ds.key = 0 <;> simp [h]

theorem getElement_isSome (hs : Headers) (key : Bytes) :
    (hs.getElement key).isSome ↔ ∃ k ∈ hs.map DataString.key, caselessCompare key k = 0 := by
  unfold getElement getIndex
  cases h : hs.findIdx? fun ds => caselessCompare key ds.key == 0 with
  | none =>
    rw [List.findIdx?_eq_none_iff] at h
    simp only [Option.bind_none, Option.isSome_none, Bool.false_eq_true, false_iff]
    rintro ⟨k, hk, h0⟩
    obtain ⟨ds, hds, rfl⟩ := List.mem_map.mp hk
    exact absurd h0 (by simpa using h ds hds)
  | some n =>
    obtain ⟨hn, hp, -⟩ := List.findIdx?_eq_some_iff_getElem.mp h
    have hget : hs[n]? = some hs[n] := List.getElem?_eq_getElem hn
    rw [Option.bind_some, hget]
    simp only [Option.isSome_some, true_iff]
    exact ⟨hs[n].key, List.mem_map.mpr ⟨hs[n], List.getElem_mem hn, rfl⟩, by simpa using hp⟩

theorem map_key_modify (hs : Headers) (n : Nat) (f : DataString → DataString) (hf : ∀ ds, (f ds).key = ds.key) :
    (hs.modify n f).map DataString.key = hs.map DataString.key := by
  induction hs generalizing n with
  | nil => cases n <;> rfl
  | cons ds hs ih =>
    cases n with
    | zero => simp [List.modify_cons, hf]
    | succ n => simp [ih]

theorem map_key_setValue (hs : Headers) (p : ValuePtr) (value : Bytes) :
    (hs.setValue p value).map DataString.key = hs.map DataString.key := by
  cases p with
  | slot n => exact map_key_modify hs n _ fun _ => rfl
  | freed v => rfl

theorem map_key_appendValue (hs : Headers) (key value : Bytes) :
    (hs.appendValue key value).map DataString.key = hs.map DataString.key := by
  unfold appendValue
  cases hs.getIndex key with
  | none => rfl
  | some n => exact map_key_modify hs n _ fun _ => rfl

/-- **What an insertion adds to the lookups.** -/
theorem getElement_insertUnique (hs : Headers) (ds : DataString) (key : Bytes) :
    ((hs.insertUnique ds).1.getElement key).isSome ↔
      (hs.getElement key).isSome ∨ caselessCompare key ds.key = 0 := by
  unfold insertUnique
  cases h : hs.getIndex ds.key with
  | none =>
    simp only [getElement_isSome, List.map_append, List.map_cons, List.map_nil, List.mem_append, List.mem_singleton]
    constructor
    · rintro ⟨k, hk | rfl, h0⟩
      · exact Or.inl ⟨k, hk, h0⟩
      · exact Or.inr h0
    · rintro (⟨k, hk, h0⟩ | h0)
      · exact ⟨k, Or.inl hk, h0⟩
      · exact ⟨ds.key, Or.inr rfl, h0⟩
  | some n =>
    have hkeys := map_key_modify hs n (insertDup ds) fun _ => rfl
    have hold : ∃ k ∈ hs.map DataString.key, caselessCompare ds.key k = 0 := by
      have hsome : (hs.getElement ds.key).isSome := by
        obtain ⟨hn, -, -⟩ := List.findIdx?_eq_some_iff_getElem.mp h
        unfold getElement
        rw [h, Option.bind_some, List.getElem?_eq_getElem hn]
        rfl
      exact (getElement_isSome hs ds.key).mp hsome
    simp only [getElement_isSome, hkeys]
    constructor
    · exact Or.inl
    · rintro (h0 | h0)
      · exact h0
      · obtain ⟨k, hk, hk0⟩ := hold
        exact ⟨k, hk, caselessCompare_trans h0 hk0⟩

end Headers

end Request

end Lighttpd
