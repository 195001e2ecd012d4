import Lighttpd.Config.ArrayLiteral
import Lighttpd.Request.Fields

/-!
# Values of options (`configfile-glue.c`)

`config_insert_values_internal` writes the values of a block to the variables of their options. A number is written as an
integer, which the parser has read, or as a string, which is read here.

- `strtol_literal`: what `strtol` makes of a decimal literal;
- `insertValues_spec`: every option is treated by itself (`setOption`);
- `integer_option`, `string_option`: the number that is stored for each of the two forms.
-/

namespace Lighttpd.Config
open Request

/-! ## The source -/

/-- `ERANGE` after `strtol(s, NULL, 10)`. -/
def strtolErange (s : Bytes) : Bool :=
  let (neg, t) := readSign ((cstr s).dropWhile isspace)
  (readDigits 10 0 t).1 > if neg then longMax + 1 else longMax

/-- `value ::= INTEGER`, `none` for `error parsing number`. -/
def integerValue (b : Bytes) : Option Value :=
  let (n, endptr) := strtol 10 b
  -- skip trailing whitespace
  let endptr := if endptr = cstr b then endptr else endptr.dropWhile isspace
  if strtolErange b ∨ endptr ≠ [] then none else some (.integer (toInt n))

def stringLiteral (b : Bytes) : Value := .string (Buffer.init.copyStringLen b)

/-- `config_values_type_t`. -/
inductive ConfigType
  | unset
  | string
  | short
  | int
  | boolean
  | array
  | localValue
  | deprecated
  | unsupported
deriving DecidableEq, Repr

/-- `config_values_t` without its destination. The scope only has an effect on what is logged. -/
structure ConfigValue where
  key : Bytes
  type : ConfigType
deriving DecidableEq, Repr

inductive Dest
  | buffer (b : Buffer)
  | short (n : Nat)
  | int (n : Nat)
  | array (a : DataArray Value)

/-- `srv->config_unsupported` and `srv->config_deprecated`. -/
structure Flags where
  unsupported : Bool := false
  deprecated : Bool := false
deriving DecidableEq, Repr

def toUnsigned (w : Nat) (n : Int) : Nat := (n % 2 ^ w).toNat

/-- The value of a string that is a number from `0` to `bound`, if there is a bound. -/
def stringNumber (bound : Option Int) (s : Buffer) : Option Int :=
  if cstr s.str = [] then none
  else
    let (l, e) := strtol 10 s.str
    if e ≠ cstr s.str ∧ e = [] ∧ 0 ≤ l ∧ bound.all (l ≤ ·) then some l else none

def insertString (a : DataArray Value) (ds : Option (DataUnset Value)) : Except String (DataArray Value) :=
  match ds with
  | some ⟨type, key, index, .string s⟩ =>
    match insertUnique a ⟨type, key, index, .string s⟩ with
    | .ok a => .ok a
    | .error _ => .error "assertion failed"
  | _ => .error "the value of an array can only be a string"

/-- `T_CONFIG_SHORT`, `T_CONFIG_INT`: the width in bits, the bound for a string, and the messages. -/
def setNumber (w : Nat) (bound : Option Int) (gotString expected : String) (value : Value) : Except String Nat :=
  match value with
  | .integer n => .ok (toUnsigned w n)
  | .string s =>
    match stringNumber bound s with
    | some l => .ok (toUnsigned w l)
    | none => .error gotString
  | _ => .error expected

/-- The `switch` of `config_insert_values_internal`. -/
def setOption (type : ConfigType) (value : Value) (dest : Dest) (flags : Flags) : Except String (Dest × Flags) :=
  match type with
  | .array =>
    match value, dest with
    | .array da, .array a => do
      let a ← (List.range da.used).foldlM (fun a j => insertString a (da.element j)) a
      return (.array a, flags)
    | _, _ => .error "should have been a array of strings like ... = ( \"...\" )"
  | .string =>
    match value, dest with
    | .string s, .buffer b => .ok (.buffer (b.copyBuffer s), flags)
    | _, _ => .error "should have been a string like ... = \"...\""
  | .short => do
    let n ← setNumber 16 (some 65535) "got a string but expected a short:" "expected a short integer, range 0 ... 65535" value
    return (.short n, flags)
  | .int => do
    let n ← setNumber 32 none "got a string but expected an integer:" "expected an integer, range 0 ... 4294967295" value
    return (.int n, flags)
  | .boolean =>
    match value with
    | .string s =>
      if s.str = ascii "enable" then .ok (.short 1, flags)
      else if s.str = ascii "disable" then .ok (.short 0, flags)
      else .error "ERROR: unexpected value for key:"
    | _ => .error "ERROR: unexpected type for key:"
  | .localValue => .ok (dest, flags)
  | .unset => .ok (dest, flags)
  | .unsupported => .ok (dest, { flags with unsupported := true })
  | .deprecated => .ok (dest, { flags with deprecated := true })

/-- One option: nothing is done when it is not in the block. -/
def insertOption (ca : DataArray Value) (cv : ConfigValue) (dest : Dest) (flags : Flags) : Except String (Dest × Flags) :=
  match ca.getElement cv.key with
  | some (some du) => setOption cv.type du.value dest flags
  | _ => .ok (dest, flags)

def configInsertValuesInternal (ca : DataArray Value) : List (ConfigValue × Dest) → Flags →
    Except String (List Dest × Flags)
  | [], flags => .ok ([], flags)
  | (cv, dest) :: cvs, flags => do
    let (dest, flags) ← insertOption ca cv dest flags
    let (dests, flags) ← configInsertValuesInternal ca cvs flags
    return (dest :: dests, flags)

/-! ## Decimal literals -/

variable {n : Nat} {s : Bytes} {flags : Flags} {dest : Dest} {type : ConfigType}

/-- **`strtol` of a decimal literal** is its number, or `LONG_MAX` with `ERANGE`. -/
theorem strtol_literal (h : decimalValue s = some n) :
    strtol 10 s = (min (n : Int) longMax, []) ∧ strtolErange s = decide (longMax < n) ∧ cstr s = s ∧ s ≠ [] := by
  unfold decimalValue at h
  split at h
  · rename_i hliteral
    obtain ⟨hne, hdigits⟩ := hliteral
    have hn := Option.some.inj h
    have hnul : (0 : Byte) ∉ s := fun hmem => absurd (List.all_eq_true.mp hdigits 0 hmem) (by decide)
    have hfirst : ∀ c ∈ s.head?, lightIsdigit c = true := fun c hc =>
      List.all_eq_true.mp hdigits c (List.mem_of_mem_head? hc)
    have hspace : s.dropWhile isspace = s := by
      cases s with
      | nil => rfl
      | cons c s =>
        have hno : isspace c = false := (digit_facts (hfirst c rfl)).1
        rw [List.dropWhile_cons, hno]
        rfl
    have hsign : readSign s = (false, s) := by
      unfold readSign
      split
      · exact absurd (hfirst _ rfl) (by decide)
      · exact absurd (hfirst _ rfl) (by decide)
      · rfl
    have hread := readDigits_digits hdigits 0
    rw [hn] at hread
    refine ⟨?_, ?_, cstr_eq_self hnul, hne⟩
    · simp [strtol, cstr_eq_self hnul, hspace, hsign, hread, Ne.symm hne]
    · simp [strtolErange, cstr_eq_self hnul, hspace, hsign, hread]
  · cases h

theorem integerValue_literal (h : decimalValue s = some n) :
    integerValue s = if longMax < n then none else some (.integer (toInt n)) := by
  obtain ⟨hstrtol, herange, hcstr, hne⟩ := strtol_literal h
  unfold integerValue
  rw [hstrtol, herange]
  by_cases hlong : longMax < n
  · simp [hlong]
  · have hmin : min (n : Int) longMax = n := Int.min_eq_left (by omega)
    simp [hlong, hmin]

theorem stringNumber_literal (h : decimalValue s = some n) (bound : Option Int) :
    stringNumber bound (Buffer.init.copyStringLen s) =
      if bound.all (min (n : Int) longMax ≤ ·) then some (min (n : Int) longMax) else none := by
  obtain ⟨hstrtol, -, hcstr, hne⟩ := strtol_literal h
  have hpos : 0 ≤ min (n : Int) longMax := by omega
  unfold stringNumber
  rw [Buffer.copyStringLen_str, hcstr, hstrtol, if_neg hne]
  simp [Ne.symm hne, hpos]

/-! ## The two forms -/

/-- How a number is written. -/
inductive Form
  | integer
  | string
deriving DecidableEq, Repr

def Form.value : Form → Bytes → Option Value
  | integer, digits => integerValue digits
  | string, digits => some (stringLiteral digits)

def Dest.number : Dest → Option Nat
  | short n => some n
  | int n => some n
  | _ => none

/-- **The number that is stored**, `none` when an error is reported. -/
def stored (type : ConfigType) (form : Form) (digits : Bytes) (dest : Dest) (flags : Flags) : Option Nat :=
  (form.value digits).bind fun v =>
    match setOption type v dest flags with
    | .ok (d, _) => d.number
    | .error _ => none

/-- `toInt` keeps what an unsigned number of at most 32 bits has. -/
theorem toUnsigned_toInt {w : Nat} (hw : w = 16 ∨ w = 32) (n : Nat) : toUnsigned w (toInt n) = n % 2 ^ w := by
  unfold toUnsigned toInt
  have hmod : Int.bmod n (2 ^ 32) % (2 ^ 32 : Int) = n % 2 ^ 32 := Int.bmod_emod
  rcases hw with rfl | rfl <;> omega

section

variable {digits : Bytes} (dest : Dest) (flags : Flags)

theorem stored_integer_short (h : decimalValue digits = some n) :
    stored .short .integer digits dest flags = if longMax < n then none else some (n % 2 ^ 16) := by
  show (integerValue digits).bind _ = _
  rw [integerValue_literal h]
  split
  · rfl
  · exact congrArg some (toUnsigned_toInt (Or.inl rfl) n)

theorem stored_integer_int (h : decimalValue digits = some n) :
    stored .int .integer digits dest flags = if longMax < n then none else some (n % 2 ^ 32) := by
  show (integerValue digits).bind _ = _
  rw [integerValue_literal h]
  split
  · rfl
  · exact congrArg some (toUnsigned_toInt (Or.inr rfl) n)

theorem stored_string_short (h : decimalValue digits = some n) :
    stored .short .string digits dest flags = if n ≤ 65535 then some n else none := by
  have hnumber := stringNumber_literal h (some 65535)
  unfold stored Form.value stringLiteral setOption setNumber
  rw [Option.bind_some]
  simp only [hnumber]
  by_cases hle : n ≤ 65535
  · have hmin : min (n : Int) longMax = n := Int.min_eq_left (by unfold longMax; omega)
    have hsmall : (n : Int) ≤ 65535 := by omega
    simp only [hmin, hle, if_true, Option.all_some, hsmall, decide_true]
    show some (toUnsigned 16 n) = some n
    congr 1
    unfold toUnsigned
    omega
  · have hlarge : ¬ min (n : Int) longMax ≤ 65535 := by unfold longMax; omega
    simp only [hle, if_false, Option.all_some, hlarge, decide_false, Bool.false_eq_true]
    rfl

theorem stored_string_int (h : decimalValue digits = some n) :
    stored .int .string digits dest flags = some (min n longMax % 2 ^ 32) := by
  have hnumber := stringNumber_literal h none
  unfold stored Form.value stringLiteral setOption setNumber
  rw [Option.bind_some]
  simp only [hnumber, Option.all_none, if_true]
  show some (toUnsigned 32 (min (n : Int) longMax)) = _
  congr 1
  unfold toUnsigned
  omega

end

/-! ## Every option by itself -/

/-- **What `config_insert_values_internal` does to one option**: what is in the block is stored at its destination. -/
theorem insertValues_spec {ca : DataArray Value} {cvs : List (ConfigValue × Dest)} {flags' : Flags}
    {dests : List Dest} (h : configInsertValuesInternal ca cvs flags = .ok (dests, flags')) {i : Nat} {cv : ConfigValue}
    {du : DataUnset Value} (hi : cvs[i]? = some (cv, dest)) (hdu : ca.getElement cv.key = some (some du)) :
    ∃ f r, setOption cv.type du.value dest f = .ok r ∧ dests[i]? = some r.1 := by
  induction cvs generalizing flags dests i with
  | nil => simp at hi
  | cons entry cvs ih =>
    obtain ⟨cv', dest'⟩ := entry
    unfold configInsertValuesInternal at h
    rcases hfirst : insertOption ca cv' dest' flags with e | ⟨d, f⟩
    · rw [hfirst] at h
      cases h
    · rw [hfirst] at h
      rcases hrest : configInsertValuesInternal ca cvs f with e | ⟨rest, f'⟩
      · simp [hrest, bind, Except.bind] at h
      · simp only [hrest, bind, Except.bind] at h
        cases h
        cases i with
        | zero =>
          cases hi
          simp only [insertOption, hdu] at hfirst
          exact ⟨flags, (d, f), hfirst, rfl⟩
        | succ i => exact ih hrest hi

/-- **The number written is the number stored**, in every block and every table of options, or there is an error. -/
def Exact (type : ConfigType) (digits : Bytes) (n : Nat) : Prop :=
  ∀ form ca cvs flags dests flags', configInsertValuesInternal ca cvs flags = .ok (dests, flags') →
    ∀ (i : Nat) (cv : ConfigValue) (dest : Dest) (du : DataUnset Value), cvs[i]? = some (cv, dest) → cv.type = type → ca.getElement cv.key = some (some du) →
      Form.value form digits = some du.value → ∃ d, dests[i]? = some d ∧ d.number = some n

def Alike (type : ConfigType) (digits : Bytes) : Prop :=
  ∀ dest flags, stored type .integer digits dest flags = stored type .string digits dest flags

/-- **The number is in the range of the option**; a number too large for `long` is an error for a short one. -/
def InRange (type : ConfigType) (n : Nat) : Prop := if type = .short then n ≤ 65535 ∨ 2 ^ 63 ≤ n else n ≤ 4294967295

theorem setOption_number (htype : type = .short ∨ type = .int) {v : Value}
    {r : Dest × Flags} (h : setOption type v dest flags = .ok r) : ∃ n, r.1.number = some n := by
  rcases htype with rfl | rfl
  · unfold setOption at h
    rcases hn : setNumber 16 (some 65535) "got a string but expected a short:"
      "expected a short integer, range 0 ... 65535" v with e | n
    · rw [hn] at h
      cases h
    · rw [hn] at h
      cases h
      exact ⟨n, rfl⟩
  · unfold setOption at h
    rcases hn : setNumber 32 none "got a string but expected an integer:"
      "expected an integer, range 0 ... 4294967295" v with e | n
    · rw [hn] at h
      cases h
    · rw [hn] at h
      cases h
      exact ⟨n, rfl⟩

theorem exact_of_stored (htype : type = .short ∨ type = .int) {digits : Bytes}
    (h : ∀ form dest flags m, stored type form digits dest flags = some m → m = n) : Exact type digits n := by
  intro form ca cvs flags dests flags' hrun i cv dest du hi hcv hdu hvalue
  obtain ⟨f, r, hset, hdest⟩ := insertValues_spec hrun hi hdu
  rw [hcv] at hset
  obtain ⟨m, hm⟩ := setOption_number htype hset
  have hstored : stored type form digits dest f = some m := by
    simp [stored, hvalue, hset, hm]
  exact ⟨r.1, hdest, by rw [hm, h form dest f m hstored]⟩

def oneOption (v : Value) : DataArray Value := ⟨[some ⟨v.type, some (ascii "option"), false, v⟩], [0], 1, 1, 0⟩

theorem oneOption_element (v : Value) : (oneOption v).getElement (ascii "option") =
    some (some ⟨v.type, some (ascii "option"), false, v⟩) := by
  have hcstr : cstr (ascii "option") = ascii "option" := by decide
  have hcompare : caselessCompare (ascii "option") (ascii "option") = 0 := by decide
  have hmax : 1 ≤ ssizeMax := by decide
  simp [oneOption, DataArray.getElement, DataArray.getIndex, DataArray.compareAt, DataArray.element, BinarySearch.search,
    DataUnset.keyBuf, hcstr, hcompare, hmax]

theorem stored_of_exact {digits : Bytes} (h : Exact type digits n) {form : Form}
    {m : Nat} (hstored : stored type form digits dest flags = some m) : m = n := by
  unfold stored at hstored
  rcases hvalue : Form.value form digits with _ | v
  · simp [hvalue] at hstored
  · rw [hvalue, Option.bind_some] at hstored
    rcases hset : setOption type v dest flags with e | ⟨d, f⟩
    · simp [hset] at hstored
    · rw [hset] at hstored
      have hrun : configInsertValuesInternal (oneOption v) [(⟨ascii "option", type⟩, dest)] flags = .ok ([d], f) := by
        unfold configInsertValuesInternal
        simp only [insertOption, oneOption_element, hset]
        rfl
      obtain ⟨d', hd', hnumber⟩ := h form _ _ _ _ _ hrun 0 _ _ _ rfl rfl (oneOption_element v) hvalue
      cases hd'
      have hm : d.number = some m := hstored
      rw [hm] at hnumber
      exact Option.some.inj hnumber

/-- **Configured numbers mean what is written exactly in the range of the option.** -/
theorem numbers_as_written {type : ConfigType} (htype : type = .short ∨ type = .int) {digits : Bytes} {n : Nat}
    (hn : decimalValue digits = some n) : (Exact type digits n ∧ Alike type digits) ↔ InRange type n := by
  have hlong : longMax = 9223372036854775807 := rfl
  rcases htype with rfl | rfl
  · have hrange : InRange .short n ↔ n ≤ 65535 ∨ 2 ^ 63 ≤ n := by simp [InRange]
    rw [hrange]
    constructor
    · rintro ⟨-, halike⟩
      have hsame := halike (.short 0) {}
      rw [stored_integer_short _ _ hn, stored_string_short _ _ hn] at hsame
      by_contra hout
      rw [if_neg (by omega), if_neg (by omega)] at hsame
      cases hsame
    · intro hin
      refine ⟨exact_of_stored (Or.inl rfl) fun form dest flags m hm => ?_, fun dest flags => ?_⟩
      · cases form with
        | integer =>
          rw [stored_integer_short _ _ hn] at hm
          split at hm
          · cases hm
          · have hmod := Option.some.inj hm
            omega
        | string =>
          rw [stored_string_short _ _ hn] at hm
          split at hm
          · exact (Option.some.inj hm).symm
          · cases hm
      · rw [stored_integer_short _ _ hn, stored_string_short _ _ hn]
        rcases hin with hin | hin
        · rw [if_neg (by omega), if_pos hin, Nat.mod_eq_of_lt (by omega)]
        · rw [if_pos (by omega), if_neg (by omega)]
  · have hrange : InRange .int n ↔ n ≤ 4294967295 := by simp [InRange]
    rw [hrange]
    constructor
    · rintro ⟨hexact, -⟩
      have hm := stored_of_exact hexact (stored_string_int (.int 0) {} hn)
      omega
    · intro hin
      refine ⟨exact_of_stored (Or.inr rfl) fun form dest flags m hm => ?_, fun dest flags => ?_⟩
      · cases form with
        | integer =>
          rw [stored_integer_int _ _ hn, if_neg (by omega)] at hm
          have hmod := Option.some.inj hm
          omega
        | string =>
          rw [stored_string_int _ _ hn] at hm
          have hmod := Option.some.inj hm
          omega
      · rw [stored_integer_int _ _ hn, stored_string_int _ _ hn, if_neg (by omega)]
        congr 1
        omega

/-- `0080` for a short option. -/
theorem numbers_as_written_sample :
    (Exact .short (ascii "0080") 80 ∧ Alike .short (ascii "0080")) ↔ InRange .short 80 :=
  numbers_as_written (Or.inl rfl) (by decide)

/-- The port `65616` becomes `80` as an integer and is an error as a string; the number `4294967297` becomes `1`. -/
theorem numbers_wrap :
    ¬ Exact .short (ascii "65616") 65616 ∧ ¬ Alike .short (ascii "65616") ∧ ¬ Exact .int (ascii "4294967297") 4294967297 := by
  refine ⟨fun h => ?_, fun h => ?_, fun h => ?_⟩
  · have hstored : stored .short .integer (ascii "65616") (.short 0) {} = some 80 := by decide
    exact absurd (stored_of_exact h hstored) (by decide)
  · have hsame := h (.short 0) {}
    exact absurd hsame (by decide)
  · have hstored : stored .int .string (ascii "4294967297") (.int 0) {} = some 1 := by decide
    exact absurd (stored_of_exact h hstored) (by decide)

end Lighttpd.Config
