import Lighttpd.Array.Map
import Lighttpd.Base.Buffer
import Lighttpd.Base.Strtol

/-!
# Arrays in the configuration (`configparser.y`)

An array is written with or without keys, and arrays are concatenated with `+` and `+=`. An element without a key gets
the next number of the array as its key. `Stored` says that an array has every element that was written as its own;
`insert_stored` for one more element, `insertAll_stored` for several, `stored_iff` for every expression.
-/

namespace Lighttpd.Config
open Request

/-! ## The actions of the parser -/

/-- `data_string`, `data_integer` and `data_array`. -/
inductive Value
  | string (value : Buffer)
  | integer (value : Int)
  | array (value : DataArray Value)

def Value.type : Value → DataType
  | string _ => .string
  | integer _ => .integer
  | array _ => .array

/-- `data_string_insert_dup`; the others drop the second value. -/
def Value.insertDup (dst src : DataUnset Value) : Value :=
  match dst.value, src.value with
  | string d, string s =>
    if d.isEmpty then string (d.copyBuffer s)
    else string ((d.appendStringLen (ascii ", ")).appendStringLen s.str)
  | d, _ => d

/-- No element is reset while the configuration is read. -/
def valueMethods : Methods Value := ⟨id, Value.insertDup⟩

/-- The parser gives up. -/
inductive Failure
  | duplicateKey (key : Bytes)
  | mismatch
  | assertion
deriving DecidableEq, Repr

def insertUnique (a : DataArray Value) (du : DataUnset Value) : Except Failure (DataArray Value) :=
  match a.insertUnique valueMethods du with
  | some a => .ok a
  | none => .error .assertion

/-- `array_insert_unique`, unless the key is there already. -/
def insertNew (a : DataArray Value) (du : DataUnset Value) : Except Failure (DataArray Value) :=
  match a.getElement du.keyBuf with
  | none => .error .assertion
  | some none => insertUnique a du
  | some (some _) => .error (.duplicateKey du.keyBuf)

/-- `aelements ::= aelements COMMA aelement`. -/
def aelements (c : DataArray Value) (b : DataUnset Value) : Except Failure (DataArray Value) :=
  if b.key = none then insertUnique c b else insertNew c b

/-- `array ::= LPARAN RPARAN`, or `LPARAN aelements RPARAN`, whose first element goes into an empty array. -/
def arrayOf : List (DataUnset Value) → Except Failure (DataArray Value)
  | [] => .ok .init
  | b :: bs => do
    let a ← insertUnique .init b
    bs.foldlM aelements a

def mergeElement (dst : DataArray Value) (du : DataUnset Value) : Except Failure (DataArray Value) :=
  if du.isIndexKey ∨ du.key = none then insertUnique dst du else insertNew dst du

def mergeArray (dst src : DataArray Value) : Except Failure (DataArray Value) :=
  (List.range src.used).foldlM (fun dst i =>
    match src.element i with
    | none => .ok dst
    | some du => mergeElement dst du) dst

/-- `configparser_merge_data`; the key of the result is that of `op1`, or none. -/
def configparserMergeData (op1 op2 : DataUnset Value) : Except Failure (DataUnset Value) :=
  match op1.value, op2.value with
  | .string s, .integer n => .ok { op1 with value := .string (s.appendStringLen (liItostrn n)) }
  | .integer n, .string s =>
    .ok ⟨.string, none, false, .string ((Buffer.init.appendStringLen (liItostrn n)).appendStringLen s.str)⟩
  | .string s, .string t => .ok { op1 with value := .string (s.appendStringLen t.str) }
  | .integer m, .integer n => .ok { op1 with value := .integer (toInt (m + n)) }
  | .array dst, .array src => do
    let dst ← mergeArray dst src
    return { op1 with value := .array dst }
  | _, _ => .error .mismatch

/-! ## Expressions -/

/-- A key as it is written: a token has no NUL. -/
structure Key where
  bytes : Bytes
  nonzero : (0 : Byte) ∉ bytes

/-- An element of an array as it is written: `value`, or `key => value`. A variable as `value` has its name as key. -/
structure Element where
  key : Option Key
  value : Value

def Element.du (e : Element) : DataUnset Value := ⟨e.value.type, e.key.map Key.bytes, false, e.value⟩

/-- **An expression of arrays.** For `+=`, the left operand is what the variable has been set to. -/
inductive ArrayExpr
  | literal (elements : List Element)
  | plus (left right : ArrayExpr)

def arrayData (a : DataArray Value) : DataUnset Value := ⟨.array, none, false, .array a⟩

def ArrayExpr.eval : ArrayExpr → Except Failure (DataUnset Value)
  | literal elements => do
    let a ← arrayOf (elements.map Element.du)
    return arrayData a
  | plus left right => do
    let op1 ← left.eval
    let op2 ← right.eval
    configparserMergeData op1 op2

/-- The elements in the order in which they are written. -/
def ArrayExpr.elements : ArrayExpr → List Element
  | literal elements => elements
  | plus left right => left.elements ++ right.elements

/-! ## What should be stored -/

def unkeyed (es : List Element) : Nat := (es.filter fun e => e.key.isNone).length

/-- The element without a key gets a number that is written as the key of an element before. -/
def Hits (before : List Element) (e : Element) : Prop :=
  e.key = none ∧ ∃ u ∈ before, u.key.map Key.bytes = some (copyInt (unkeyed before))

/-- One of the elements that follow hits. -/
def Clash : List Element → List Element → Prop
  | _, [] => False
  | before, e :: es => Hits before e ∨ Clash (before ++ [e]) es

/-- **An element without a key gets a number that is written as a key before it**, in a literal or a concatenation. -/
def ArrayExpr.Clashes : ArrayExpr → Prop
  | literal elements => Clash [] elements
  | plus left right => left.Clashes ∨ right.Clashes ∨ Clash left.elements right.elements

instance (before : List Element) (e : Element) : Decidable (Hits before e) := inferInstanceAs (Decidable (_ ∧ _))

instance decidableClash : ∀ before es : List Element, Decidable (Clash before es)
  | _, [] => inferInstanceAs (Decidable False)
  | before, e :: es =>
    have := decidableClash (before ++ [e]) es
    inferInstanceAs (Decidable (_ ∨ _))

instance decidableClashes : ∀ t : ArrayExpr, Decidable t.Clashes
  | .literal elements => decidableClash [] elements
  | .plus left right =>
    have := decidableClashes left
    have := decidableClashes right
    inferInstanceAs (Decidable (_ ∨ _ ∨ _))

/-- **Every element that is written is an element of its own**, in the order in which they are written. -/
def OwnElements (a : DataArray Value) (es : List Element) : Prop :=
  a.used = es.length ∧ ∀ i e, es[i]? = some e → ∃ du, a.element i = some du ∧ du.value = e.value ∧
    (du.isIndexKey = true ↔ e.key = none) ∧ ∀ key ∈ e.key, du.key = some key.bytes

/-! ## Keys -/

/-- The bytes of a generated key. -/
def plainChar (c : Byte) : Bool := Netstring.isDigit c || c == chr '-'

theorem toLower_inj {c d : Byte} (hd : plainChar d = true) (h : toLower c = toLower d) : c = d := by
  have hlow : d < 65 ∨ 122 < d := by
    simp only [plainChar, Netstring.isDigit, Bool.or_eq_true, Bool.and_eq_true, decide_eq_true_eq, beq_iff_eq] at hd
    rcases hd with hd | rfl
    · exact .inl (UInt8.lt_of_le_of_lt hd.2 (by decide))
    · decide
  exact (toLower_eq_iff hlow).mp (h.trans ((toLower_eq_iff hlow).mpr rfl))

theorem copyInt_plain (n : Nat) : ∀ c ∈ copyInt n, plainChar c = true := by
  unfold copyInt
  split
  · exact fun c hc => by simp [plainChar, (liUtostrn_spec n).2.1 c hc]
  · intro c hc
    rcases List.mem_cons.mp hc with rfl | hc
    · rfl
    · simp [plainChar, (liUtostrn_spec _).2.1 c hc]

variable {n : Nat} {dus : List (DataUnset Value)}

theorem foldKey_copyInt {k : Bytes} (h : foldKey k = foldKey (copyInt n)) : k = copyInt n := by
  have hplain := copyInt_plain n
  generalize copyInt n = d at h hplain
  induction k generalizing d with
  | nil =>
    cases d with
    | nil => rfl
    | cons e d => cases h
  | cons c k ih =>
    cases d with
    | nil => cases h
    | cons e d =>
      obtain ⟨hhead, htail⟩ := List.cons.inj h
      rw [toLower_inj (hplain e List.mem_cons_self) hhead, ih d htail fun x hx => hplain x (List.mem_cons_of_mem _ hx)]

theorem liUtostrn_ne_minus (n : Nat) (s : Bytes) : liUtostrn n ≠ chr '-' :: s := by
  intro h
  have hdigit := (liUtostrn_spec n).2.1 (chr '-') (h ▸ List.mem_cons_self)
  exact absurd hdigit (by decide)

theorem copyInt_inj {m : Nat} (hm : m < 2 ^ 64) (hn : n < 2 ^ 64) (h : copyInt m = copyInt n) : m = n := by
  unfold copyInt at h
  split at h <;> split at h
  · exact liUtostrn_inj h
  · exact absurd h (liUtostrn_ne_minus _ _)
  · exact absurd h.symm (liUtostrn_ne_minus _ _)
  · have heq := liUtostrn_inj (List.cons.inj h).2
    omega

/-! ## One element more -/

variable {a a' : DataArray Value} {es : List Element} {du : DataUnset Value} {e : Element}

/-- What `array_insert_unique` does: it finds an element with the key, or there is one element more. -/
theorem insertUnique_spec {e : DataUnset Value} (h : a.Ok)
    (hname : DataArray.nameEntry a.uniqueNdx du = some (e, n)) (hins : insertUnique a du = .ok a') :
    (∃ i < a.used, foldKey (a.keyAt i) = foldKey e.keyBuf ∧ a'.Ok ∧ a'.used = a.used) ∨
    ((∀ i < a.used, foldKey (a.keyAt i) ≠ foldKey e.keyBuf) ∧ a'.Ok ∧ a'.used = a.used + 1 ∧ a'.uniqueNdx = n ∧
      (∀ i < a.used, a'.element i = a.element i) ∧ a'.element a.used = some e) := by
  have hok : DataArray.Ok { a with uniqueNdx := n } := ⟨h.data, h.sorted, h.used, h.max, h.slots, h.perm, h.increasing⟩
  obtain ⟨r, hr, hlookup⟩ := DataArray.getIndex_spec hok e.keyBuf
  unfold insertUnique DataArray.insertUnique DataArray.findOrInsert at hins
  simp only [hname, Option.bind_eq_bind, Option.bind_some, hr] at hins
  cases hlookup with
  | found i pos old place lt element eq =>
    left
    have hkey : foldKey (a.keyAt i) = foldKey e.keyBuf := by rw [DataArray.keyAt_element (a := a) element, eq]
    simp only [Option.pure_def, Option.bind_some, element] at hins
    split at hins
    · rename_i heq
      split at heq
      · cases heq
        cases hins
        refine ⟨i, lt, hkey, ?_, rfl⟩
        exact DataArray.set_ok hok lt (DataArray.keyAt_element (a := a) element ▸ rfl)
      · cases heq
    · cases hins
  | missing pos le before behind =>
    right
    have hmissing := fun i hi => DataArray.Lookup.missing_key hok (.missing pos le before behind) (i := i) hi
    by_cases hmax : a.used + 1 ≤ ssizeMax
    · simp only [hmax, if_true, Option.pure_def, Option.bind_some] at hins
      cases hins
      obtain ⟨hok', hused, hndx, helement⟩ :=
        DataArray.growInsertAt_ok hok hmax (.missing pos le before behind)
      refine ⟨hmissing, hok', hused, hndx, fun i hi => ?_, ?_⟩
      · exact (helement i (Nat.lt_succ_of_lt hi)).trans (if_neg (Nat.ne_of_lt hi))
      · exact (helement _ (Nat.lt_succ_self _)).trans (if_pos rfl)
    · simp [hmax] at hins

/-- Where `array_get_element` finds nothing, no element has the key. -/
theorem getElement_none (h : a.Ok) {key : Bytes} (hget : a.getElement key = some none) :
    ∀ i < a.used, foldKey (a.keyAt i) ≠ foldKey (cstr key) := by
  obtain ⟨r, hr, hlookup⟩ := DataArray.getIndex_spec h (cstr key)
  unfold DataArray.getElement at hget
  rw [hr, Option.map_some, Option.some.injEq] at hget
  cases hlookup with
  | found i pos du place lt element eq =>
    rw [Option.bind_some, element] at hget
    cases hget
  | missing pos le before behind => exact fun i hi => DataArray.Lookup.missing_key h (.missing pos le before behind) hi

/-- The element as it is stored, when the number of the next generated key is `n`. -/
def Element.stored (e : Element) (n : Nat) : DataUnset Value :=
  match e.key with
  | some key => ⟨e.value.type, some key.bytes, false, e.value⟩
  | none => ⟨e.value.type, some (copyInt n), true, e.value⟩

/-- The entry is this element: one without a key may have the number of another array. -/
inductive Writes (e : Element) : DataUnset Value → Prop
  | keyed (key : Key) : e.key = some key → Writes e ⟨e.value.type, some key.bytes, false, e.value⟩
  | unkeyed (key : Option Bytes) (index : Bool) : e.key = none → (index = true ∨ key = none) →
    Writes e ⟨e.value.type, key, index, e.value⟩

theorem writes_du (e : Element) : Writes e e.du := by
  rcases hkey : e.key with _ | key
  · have hwrites := Writes.unkeyed (e := e) none false hkey (Or.inr rfl)
    simpa [Element.du, hkey] using hwrites
  · have hwrites := Writes.keyed (e := e) key hkey
    simpa [Element.du, hkey] using hwrites

theorem writes_stored (e : Element) (n : Nat) : Writes e (e.stored n) := by
  rcases hkey : e.key with _ | key
  · have hwrites := Writes.unkeyed (e := e) (some (copyInt n)) true hkey (Or.inl rfl)
    simpa [Element.stored, hkey] using hwrites
  · have hwrites := Writes.keyed (e := e) key hkey
    simpa [Element.stored, hkey] using hwrites

@[simp] theorem unkeyed_append (es fs : List Element) : unkeyed (es ++ fs) = unkeyed es + unkeyed fs := by
  simp [unkeyed]

theorem unkeyed_singleton (e : Element) : unkeyed [e] = if e.key = none then 1 else 0 := by
  rcases hkey : e.key with _ | key <;> simp [unkeyed, hkey]

/-- The number of an element without a key is smaller than that of the next one. -/
theorem unkeyed_take_lt {i : Nat} (hi : es[i]? = some e) (hkey : e.key = none) :
    unkeyed (es.take i) < unkeyed es := by
  obtain ⟨hlt, rfl⟩ := List.getElem?_eq_some_iff.mp hi
  have hsplit : es = es.take i ++ ([es[i]] ++ es.drop (i + 1)) := by simp
  have hcount : unkeyed es = unkeyed (es.take i) + (unkeyed [es[i]] + unkeyed (es.drop (i + 1))) := by
    rw [← unkeyed_append, ← unkeyed_append, ← hsplit]
  rw [hcount, unkeyed_singleton, if_pos hkey]
  omega

/-- **The array has every element as its own.** -/
structure Stored (a : DataArray Value) (es : List Element) : Prop where
  ok : a.Ok
  used : a.used = es.length
  uniqueNdx : a.uniqueNdx = unkeyed es
  element : ∀ i e, es[i]? = some e → a.element i = some (e.stored (unkeyed (es.take i)))

theorem stored_init : Stored .init [] := ⟨DataArray.init_ok, rfl, rfl, fun _ _ h => by simp at h⟩

theorem Stored.ownElements (h : Stored a es) : OwnElements a es := by
  refine ⟨h.used, fun i e hi => ⟨_, h.element i e hi, ?_⟩⟩
  rcases hkey : e.key with _ | key <;> simp [Element.stored, hkey]

theorem Stored.append (h : Stored a es) (hok : a'.Ok)
    (hused : a'.used = a.used + 1) (hndx : a'.uniqueNdx = unkeyed (es ++ [e]))
    (hold : ∀ i < a.used, a'.element i = a.element i) (hnew : a'.element a.used = some (e.stored (unkeyed es))) :
    Stored a' (es ++ [e]) := by
  refine ⟨hok, by rw [hused, h.used, List.length_append, List.length_singleton], hndx, fun i f hi => ?_⟩
  by_cases hlt : i < es.length
  · rw [List.getElem?_append_left hlt] at hi
    rw [hold i (h.used ▸ hlt), h.element i f hi, List.take_append_of_le_length (Nat.le_of_lt hlt)]
  · have hbound := (List.getElem?_eq_some_iff.mp hi).1
    have heq : i = es.length := by
      rw [List.length_append, List.length_singleton] at hbound
      omega
    subst heq
    rw [List.getElem?_append_right (Nat.le_refl _), Nat.sub_self, List.getElem?_cons_zero] at hi
    cases hi
    rw [← h.used, hnew, h.used, List.take_left]

theorem Stored.keyAt (h : Stored a es) {i : Nat} (hi : es[i]? = some e) : a.keyAt i = match e.key with
      | some key => key.bytes
      | none => copyInt (unkeyed (es.take i)) := by
  rw [DataArray.keyAt_element (h.element i e hi)]
  rcases hkey : e.key with _ | key <;> simp [Element.stored, hkey, DataUnset.keyBuf]

/-- **An element without a key** finds another one only if it hits. -/
theorem insert_unkeyed (h : Stored a es)
    (hkey : e.key = none) (hwrites : Writes e du) (hins : insertUnique a du = .ok a') :
    (Hits es e ∧ a'.Ok ∧ a'.used = a.used) ∨ (¬ Hits es e ∧ Stored a' (es ++ [e])) := by
  obtain ⟨hbound, hname⟩ : unkeyed es + 1 < 2 ^ 64 ∧
      DataArray.nameEntry a.uniqueNdx du = some (e.stored (unkeyed es), unkeyed es + 1) := by
    cases hwrites with
    | keyed key hsome => rw [hkey] at hsome; cases hsome
    | unkeyed key index _ hindex =>
      have hcond : key = none ∨ index = true := hindex.symm
      by_cases hbound : unkeyed es + 1 < 2 ^ 64
      · refine ⟨hbound, ?_⟩
        unfold DataArray.nameEntry
        rw [if_pos hcond, h.uniqueNdx, if_pos hbound]
        simp [Element.stored, hkey]
      · have hnone : DataArray.nameEntry a.uniqueNdx ⟨e.value.type, key, index, e.value⟩ = none := by
          unfold DataArray.nameEntry
          rw [if_pos hcond, h.uniqueNdx, if_neg hbound]
        simp [insertUnique, DataArray.insertUnique, DataArray.findOrInsert, hnone] at hins
  have hbuf : (e.stored (unkeyed es)).keyBuf = copyInt (unkeyed es) := by
    simp [Element.stored, hkey, DataUnset.keyBuf]
  rcases insertUnique_spec h.ok hname hins with ⟨i, hi, heq, hok, hused⟩ | ⟨hmissing, hok, hused, hndx, hold, hnew⟩
  · left
    refine ⟨⟨hkey, ?_⟩, hok, hused⟩
    obtain ⟨u, hu⟩ : ∃ u, es[i]? = some u := ⟨_, List.getElem?_eq_getElem (h.used ▸ hi)⟩
    rw [hbuf, h.keyAt hu] at heq
    have hcopy := foldKey_copyInt heq
    rcases hkeyed : u.key with _ | key
    · rw [hkeyed] at hcopy
      have hlt := unkeyed_take_lt hu hkeyed
      have hsame := copyInt_inj (by omega) (by omega) hcopy
      omega
    · rw [hkeyed] at hcopy
      exact ⟨u, List.mem_of_getElem? hu, by rw [hkeyed, Option.map_some, ← hcopy]⟩
  · right
    refine ⟨?_, h.append hok hused ?_ hold hnew⟩
    · rintro ⟨-, u, hu, hcopy⟩
      obtain ⟨i, hi, rfl⟩ := List.getElem_of_mem hu
      apply hmissing i (h.used ▸ hi)
      rw [hbuf, h.keyAt (List.getElem?_eq_getElem hi)]
      rcases hkeyed : (es[i]).key with _ | key
      · rw [hkeyed] at hcopy
        cases hcopy
      · rw [hkeyed] at hcopy
        rw [← Option.some.inj hcopy]
    · rw [hndx, unkeyed_append, unkeyed_singleton, if_pos hkey]

/-- **An element with a key** is stored, or its key is there already. -/
theorem insert_keyed {key : Key} (h : Stored a es)
    (hkey : e.key = some key) (hins : insertNew a ⟨e.value.type, some key.bytes, false, e.value⟩ = .ok a') :
    Stored a' (es ++ [e]) := by
  have hname : DataArray.nameEntry a.uniqueNdx ⟨e.value.type, some key.bytes, false, e.value⟩ =
      some (e.stored (unkeyed es), a.uniqueNdx) := by
    simp [DataArray.nameEntry, Element.stored, hkey]
  have hbuf : (e.stored (unkeyed es)).keyBuf = key.bytes := by simp [Element.stored, hkey, DataUnset.keyBuf]
  unfold insertNew at hins
  split at hins
  · cases hins
  · rename_i hget
    have hmissing := getElement_none h.ok hget
    rcases insertUnique_spec h.ok hname hins with ⟨i, hi, heq, -, -⟩ | ⟨-, hok, hused, hndx, hold, hnew⟩
    · have hcstr : cstr key.bytes = key.bytes := cstr_eq_self key.nonzero
      rw [hbuf] at heq
      rw [show DataUnset.keyBuf ⟨e.value.type, some key.bytes, false, e.value⟩ = key.bytes from rfl, hcstr] at hmissing
      exact absurd heq (hmissing i hi)
    · refine h.append hok hused ?_ hold hnew
      rw [hndx, h.uniqueNdx, unkeyed_append, unkeyed_singleton, hkey]
      simp
  · cases hins

/-- **One element more**: it is stored unless it hits. -/
theorem insert_stored (h : Stored a es) (hwrites : Writes e du) (hins : mergeElement a du = .ok a') :
    (Hits es e ∧ a'.Ok ∧ a'.used = a.used) ∨ (¬ Hits es e ∧ Stored a' (es ++ [e])) := by
  rcases hkey : e.key with _ | key
  · apply insert_unkeyed h hkey hwrites
    cases hwrites with
    | keyed key hsome => rw [hkey] at hsome; cases hsome
    | unkeyed key index _ hindex => simpa [mergeElement, hindex] using hins
  · right
    have hno : ¬ Hits es e := by
      rintro ⟨hnone, -⟩
      rw [hkey] at hnone
      cases hnone
    refine ⟨hno, insert_keyed h hkey ?_⟩
    cases hwrites with
    | keyed key' hsome =>
      rw [hkey] at hsome
      cases hsome
      simpa [mergeElement] using hins
    | unkeyed key index hnone _ => rw [hkey] at hnone; cases hnone

theorem insertUnique_used (h : a.Ok) (hins : insertUnique a du = .ok a') : a'.Ok ∧ a'.used ≤ a.used + 1 := by
  rcases hname : DataArray.nameEntry a.uniqueNdx du with _ | ⟨e, n⟩
  · simp [insertUnique, DataArray.insertUnique, DataArray.findOrInsert, hname] at hins
  · rcases insertUnique_spec h hname hins with ⟨-, -, -, hok, hused⟩ | ⟨-, hok, hused, -⟩
    · exact ⟨hok, by omega⟩
    · exact ⟨hok, by omega⟩

theorem mergeElement_used (h : a.Ok) (hins : mergeElement a du = .ok a') : a'.Ok ∧ a'.used ≤ a.used + 1 := by
  unfold mergeElement insertNew at hins
  split at hins
  · exact insertUnique_used h hins
  · split at hins
    · cases hins
    · exact insertUnique_used h hins
    · cases hins

theorem foldlM_cons (h : (du :: dus).foldlM mergeElement a = .ok a') :
    ∃ b, mergeElement a du = .ok b ∧ dus.foldlM mergeElement b = .ok a' := by
  rw [List.foldlM_cons] at h
  rcases hmerge : mergeElement a du with _ | b
  · rw [hmerge] at h
    cases h
  · rw [hmerge] at h
    exact ⟨b, rfl, h⟩

theorem insertAll_used (h : a.Ok)
    (hins : dus.foldlM mergeElement a = .ok a') : a'.Ok ∧ a'.used ≤ a.used + dus.length := by
  induction dus generalizing a with
  | nil =>
    cases hins
    exact ⟨h, Nat.le_refl _⟩
  | cons du dus ih =>
    obtain ⟨b, hb, hrest⟩ := foldlM_cons hins
    obtain ⟨hok, hused⟩ := mergeElement_used h hb
    obtain ⟨hok', hused'⟩ := ih hok hrest
    refine ⟨hok', ?_⟩
    rw [List.length_cons]
    omega

/-- **Several elements more**: all of them are stored, or one hits and there are fewer. -/
theorem insertAll_stored {fs : List Element} (hwrites : List.Forall₂ Writes fs dus)
    (h : Stored a es) (hins : dus.foldlM mergeElement a = .ok a') :
    (Clash es fs ∧ a'.Ok ∧ a'.used < es.length + fs.length) ∨ (¬ Clash es fs ∧ Stored a' (es ++ fs)) := by
  induction hwrites generalizing a es with
  | nil =>
    cases hins
    right
    rw [List.append_nil]
    exact ⟨id, h⟩
  | @cons e du fs dus hdu hdus ih =>
    obtain ⟨b, hb, hrest⟩ := foldlM_cons hins
    rcases insert_stored h hdu hb with ⟨hhits, hok, hused⟩ | ⟨hhits, hstored⟩
    · left
      obtain ⟨hok', hused'⟩ := insertAll_used hok hrest
      refine ⟨Or.inl hhits, hok', ?_⟩
      have hlen := hdus.length_eq
      have hes := h.used
      rw [List.length_cons]
      omega
    · rcases ih hstored hrest with ⟨hclash, hok, hused⟩ | ⟨hclash, hstored'⟩
      · left
        refine ⟨Or.inr hclash, hok, ?_⟩
        rw [List.length_append, List.length_singleton] at hused
        rw [List.length_cons]
        omega
      · right
        rw [List.append_assoc, List.singleton_append] at hstored'
        refine ⟨?_, hstored'⟩
        rintro (hhits' | hclash')
        · exact hhits hhits'
        · exact hclash hclash'

/-! ## Literals and concatenations -/

theorem aelements_eq {bs : List Element} :
    (bs.map Element.du).foldlM aelements a = (bs.map Element.du).foldlM mergeElement a := by
  induction bs generalizing a with
  | nil => rfl
  | cons b bs ih =>
    have hb : aelements a b.du = mergeElement a b.du := by simp [aelements, mergeElement, Element.du]
    rw [List.map_cons, List.foldlM_cons, List.foldlM_cons, hb]
    congr 1
    funext a
    exact ih

theorem arrayOf_eq (es : List Element) : arrayOf (es.map Element.du) = (es.map Element.du).foldlM mergeElement .init := by
  cases es with
  | nil => rfl
  | cons e es =>
    have he : insertUnique .init e.du = mergeElement .init e.du := by
      unfold mergeElement insertNew
      split
      · rfl
      · rfl
    rw [List.map_cons, List.foldlM_cons, ← he]
    show (do let a ← insertUnique .init e.du; (es.map Element.du).foldlM aelements a) = _
    congr 1
    funext a
    exact aelements_eq

def elementsOf (a : DataArray Value) : List (DataUnset Value) := (List.range a.used).filterMap a.element

theorem length_elementsOf (a : DataArray Value) : (elementsOf a).length ≤ a.used := by
  have hlen := List.length_filterMap_le a.element (List.range a.used)
  rwa [List.length_range] at hlen

theorem mergeArray_eq (dst src : DataArray Value) : mergeArray dst src = (elementsOf src).foldlM mergeElement dst := by
  unfold mergeArray elementsOf
  generalize List.range src.used = l
  induction l generalizing dst with
  | nil => rfl
  | cons i l ih =>
    rw [List.foldlM_cons, List.filterMap_cons]
    rcases src.element i with _ | du
    · exact ih dst
    · rw [List.foldlM_cons]
      congr 1
      funext dst
      exact ih dst

theorem filterMap_writes {fs : List Element} {k : Nat}
    (h : ∀ j e, fs[j]? = some e → ∃ n, a.element (k + j) = some (e.stored n)) :
    List.Forall₂ Writes fs ((List.range' k fs.length).filterMap a.element) := by
  induction fs generalizing k with
  | nil => exact .nil
  | cons e fs ih =>
    obtain ⟨n, hn⟩ := h 0 e rfl
    rw [Nat.add_zero] at hn
    rw [List.length_cons, List.range'_succ, List.filterMap_cons, hn]
    refine .cons (writes_stored e n) (ih fun j f hj => ?_)
    rw [Nat.add_assoc, Nat.add_comm 1 j]
    exact h (j + 1) f hj

theorem elementsOf_writes (h : Stored a es) : List.Forall₂ Writes es (elementsOf a) := by
  rw [elementsOf, h.used, List.range_eq_range']
  refine filterMap_writes fun j e hj => ⟨unkeyed (es.take j), ?_⟩
  rw [Nat.zero_add]
  exact h.element j e hj

/-- **What an expression evaluates to**: all elements are stored, or there is a clash and there are fewer. -/
theorem eval_stored {t : ArrayExpr} (h : t.eval = .ok du) : ∃ a, du = arrayData a ∧
      ((t.Clashes ∧ a.Ok ∧ a.used < t.elements.length) ∨ (¬ t.Clashes ∧ Stored a t.elements)) := by
  induction t generalizing du with
  | literal es =>
    unfold ArrayExpr.eval at h
    rw [arrayOf_eq] at h
    rcases hins : (es.map Element.du).foldlM mergeElement .init with _ | a
    · rw [hins] at h
      cases h
    · rw [hins] at h
      cases h
      have hwrites : List.Forall₂ Writes es (es.map Element.du) :=
        List.forall₂_map_right_iff.mpr (List.forall₂_same.mpr fun e _ => writes_du e)
      refine ⟨a, rfl, ?_⟩
      rcases insertAll_stored hwrites stored_init hins with ⟨hclash, hok, hused⟩ | ⟨hclash, hstored⟩
      · exact Or.inl ⟨hclash, hok, by rwa [List.length_nil, Nat.zero_add] at hused⟩
      · exact Or.inr ⟨hclash, hstored⟩
  | plus left right ihl ihr =>
    unfold ArrayExpr.eval at h
    rcases hl : left.eval with _ | op1
    · rw [hl] at h
      cases h
    · obtain ⟨dst, rfl, hdst⟩ := ihl hl
      rcases hr : right.eval with _ | op2
      · rw [hl, hr] at h
        cases h
      · obtain ⟨src, rfl, hsrc⟩ := ihr hr
        have hmerge : configparserMergeData (arrayData dst) (arrayData src) = .ok du := by
          rw [hl, hr] at h
          exact h
        simp only [configparserMergeData, arrayData] at hmerge
        rcases hins : mergeArray dst src with _ | a
        · rw [hins] at hmerge
          cases hmerge
        · rw [hins] at hmerge
          cases hmerge
          rw [mergeArray_eq] at hins
          refine ⟨a, rfl, ?_⟩
          have hcount := length_elementsOf src
          rcases hdst with ⟨hclash, hok, hused⟩ | ⟨hleft, hstored⟩
          · left
            obtain ⟨hok', hused'⟩ := insertAll_used hok hins
            refine ⟨Or.inl hclash, hok', ?_⟩
            have hsrcUsed : src.used ≤ right.elements.length := by
              rcases hsrc with ⟨-, -, hlt⟩ | ⟨-, hstored⟩
              · exact Nat.le_of_lt hlt
              · exact Nat.le_of_eq hstored.used
            rw [ArrayExpr.elements, List.length_append]
            omega
          · rcases hsrc with ⟨hclash, -, hlt⟩ | ⟨hright, hsrcStored⟩
            · left
              obtain ⟨hok', hused'⟩ := insertAll_used hstored.ok hins
              refine ⟨Or.inr (Or.inl hclash), hok', ?_⟩
              have hdstUsed := hstored.used
              rw [ArrayExpr.elements, List.length_append]
              omega
            · rcases insertAll_stored (elementsOf_writes hsrcStored) hstored hins with ⟨hclash, hok, hused⟩ | ⟨hclash, hres⟩
              · left
                refine ⟨Or.inr (Or.inr hclash), hok, ?_⟩
                rwa [ArrayExpr.elements, List.length_append]
              · right
                refine ⟨?_, hres⟩
                rintro (hc | hc | hc)
                · exact hleft hc
                · exact hright hc
                · exact hclash hc

/-- **Every element is stored as its own exactly where no generated number is written as a key before.** -/
theorem index_keys_collide_iff {t : ArrayExpr} {du : DataUnset Value} (h : t.eval = .ok du) :
    ∃ a, du.value = .array a ∧ (OwnElements a t.elements ↔ ¬ t.Clashes) := by
  obtain ⟨a, rfl, ⟨hclash, -, hused⟩ | ⟨hclash, hstored⟩⟩ := eval_stored h
  · refine ⟨a, rfl, fun hown => absurd hown.1 (Nat.ne_of_lt hused), fun hno => absurd hclash hno⟩
  · exact ⟨a, rfl, fun _ => hclash, fun _ => hstored.ownElements⟩

def stringValue (s : String) : Value := .string (Buffer.ofString (ascii s))

/-- `("k" => "a", "b") + ("c")`. -/
def sampleExpr : ArrayExpr :=
  .plus (.literal [⟨some ⟨ascii "k", by decide⟩, stringValue "a"⟩, ⟨none, stringValue "b"⟩])
    (.literal [⟨none, stringValue "c"⟩])

/-- Each of its elements is stored. -/
theorem index_keys_collide_iff_sample : ∃ du a, sampleExpr.eval = .ok du ∧ du.value = .array a ∧
    OwnElements a sampleExpr.elements := by
  have hok : sampleExpr.eval.isOk = true := by decide
  rcases heval : sampleExpr.eval with e | du
  · rw [heval] at hok
    cases hok
  · obtain ⟨a, ha, hiff⟩ := index_keys_collide_iff heval
    exact ⟨du, a, rfl, ha, hiff.mpr (by decide)⟩

/-- `("0" => "a", "b")`. -/
def collidingExpr : ArrayExpr :=
  .literal [⟨some ⟨ascii "0", by decide⟩, stringValue "a"⟩, ⟨none, stringValue "b"⟩]

def onlyString : Except Failure (DataUnset Value) → Option Bytes
  | .ok ⟨_, _, _, .array a⟩ =>
    match a.used, a.element 0 with
    | 1, some ⟨_, _, _, .string s⟩ => some s.str
    | _, _ => none
  | _ => none

/-- Its two values are merged. -/
theorem index_key_merges : onlyString collidingExpr.eval = some (ascii "a, b") ∧
    ∀ du a, collidingExpr.eval = .ok du → du.value = .array a → ¬ OwnElements a collidingExpr.elements := by
  have honly : onlyString collidingExpr.eval = some (ascii "a, b") := by decide
  refine ⟨honly, fun du a heval ha hown => ?_⟩
  rw [heval] at honly
  obtain ⟨type, key, index, value⟩ := du
  subst ha
  have hused : a.used = 2 := hown.1
  simp [onlyString, hused] at honly

end Lighttpd.Config
