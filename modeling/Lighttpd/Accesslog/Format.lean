import Mathlib.Data.List.Forall2
import Lighttpd.Accesslog.Fraction
import Lighttpd.Base.Ascii

/-!
# The format of the access log (`mod_accesslog.c`)

`accesslog_parse_format` takes the format apart into text and placeholders, and `log_access_open` looks at the options of
the placeholders. A placeholder is `%` and a key, maybe with `>`, `<` or a name in braces between them.

- `parseLoop_covers`: the loop of the parser keeps that the fields so far stand for the text so far;
- `logAccessOpen_covers`: the fields of a format that is accepted stand for this format;
- `nameless_of_pieces`: where a placeholder without a name is read, there is a field without one.
-/

namespace Lighttpd.Accesslog

/-! ## The fields -/

inductive FormatType
  | unset
  | unsupported
  | percent
  | remoteHost
  | remoteIdent
  | remoteUser
  | timestamp
  | requestLine
  | status
  | bytesOutNoHeader
  | header
  | remoteAddr
  | localAddr
  | cookie
  | timeUsedUs
  | env
  | filename
  | requestProtocol
  | requestMethod
  | serverPort
  | queryString
  | timeUsed
  | url
  | serverName
  | httpHost
  | connectionStatus
  | bytesIn
  | bytesOut
  | keepaliveCount
  | responseHeader
deriving DecidableEq, Repr

def fmap : List (Byte × FormatType) :=
  [(chr '%', .percent), (chr 'h', .remoteHost), (chr 'l', .remoteIdent), (chr 'u', .remoteUser), (chr 't', .timestamp),
   (chr 'r', .requestLine), (chr 's', .status), (chr 'b', .bytesOutNoHeader), (chr 'i', .header), (chr 'a', .remoteAddr),
   (chr 'A', .localAddr), (chr 'B', .bytesOutNoHeader), (chr 'C', .cookie), (chr 'D', .timeUsedUs), (chr 'e', .env),
   (chr 'f', .filename), (chr 'H', .requestProtocol), (chr 'k', .keepaliveCount), (chr 'm', .requestMethod),
   (chr 'n', .unsupported), (chr 'p', .serverPort), (chr 'P', .unsupported), (chr 'q', .queryString),
   (chr 'T', .timeUsed), (chr 'U', .url), (chr 'v', .serverName), (chr 'V', .httpHost), (chr 'X', .connectionStatus),
   (chr 'I', .bytesIn), (chr 'O', .bytesOut), (chr 'o', .responseHeader)]

def typeOf (key : Byte) : Option FormatType := (fmap.find? fun m => m.1 = key).map Prod.snd

/-- The units of times, `FORMAT_FLAG_TIME_SEC` to `FORMAT_FLAG_TIME_NSEC_FRAC`. -/
inductive TimeUnit
  | sec
  | msec
  | usec
  | nsec
  | frac (k : Fraction)
deriving DecidableEq, Repr

/-- `opt`: `FORMAT_FLAG_TIME_BEGIN`, and at most one unit. -/
structure Opt where
  atBegin : Bool
  unit : Option TimeUnit
deriving DecidableEq, Repr

inductive FieldType
  | string
  | format
deriving DecidableEq, Repr

structure FormatField where
  type : FieldType
  string : Option Bytes
  field : FormatType
  opt : Opt
deriving DecidableEq, Repr

def Opt.zero : Opt := ⟨false, none⟩

def FormatField.text (s : Bytes) : FormatField := ⟨.string, some s, .unset, .zero⟩

def FormatField.placeholder (string : Option Bytes) (field : FormatType) : FormatField := ⟨.format, string, field, .zero⟩

/-! ## `accesslog_parse_format` -/

def substr (format : Bytes) (start i : Nat) : Bytes := (format.drop start).take (i - start)

/-- The search for the terminating command, behind the `%` at `i`: the field, and the place behind it. -/
def parsePlaceholder (format : Bytes) (i : Nat) : Except String (FormatField × Nat) :=
  let c := format.getD (i + 1) 0
  if c = chr '>' ∨ c = chr '<' then
    if format.getD (i + 2) 0 = 0 then .error "%< and %> have to be followed by a format-specifier"
    else
      match typeOf (format.getD (i + 2) 0) with
      | some field => .ok (.placeholder none field, i + 3)
      | none => .error "%< and %> have to be followed by a valid format-specifier"
  else if c = chr '\x7b' then
    let k := i + 2 + ((format.drop (i + 2)).takeWhile (· ≠ chr '\x7d')).length
    if k = format.length then .error "%\x7b has to be terminated by a \x7d"
    else if format.getD (k + 1) 0 = 0 then .error "%\x7b...\x7d has to be followed by a format-specifier"
    else if k = i + 2 then .error "%\x7b...\x7d has to be contain a string"
    else
      match typeOf (format.getD (k + 1) 0) with
      | some field => .ok (.placeholder (some (substr format (i + 2) k)) field, k + 2)
      | none => .error "%\x7b...\x7d has to be followed by a valid format-specifier"
  else if c = 0 then .error "% has to be followed by a format-specifier"
  else
    match typeOf c with
    | some field => .ok (.placeholder none field, i + 2)
    | none => .error "% has to be followed by a valid format-specifier"

/-- The string that is left behind the last placeholder is copied. -/
def copyRest (format : Bytes) (i start : Nat) (fields : List FormatField) : List FormatField :=
  if start < i then fields ++ [.text (substr format start i)] else fields

/-- The loop over the format. The first argument bounds the number of rounds that are left. -/
def parseLoop (format : Bytes) : Nat → Nat → Nat → List FormatField → Except String (List FormatField)
  | 0, i, start, fields => .ok (copyRest format i start fields)
  | fuel + 1, i, start, fields =>
    if i < format.length then
      if format.getD i 0 = chr '%' then
        -- the string before this %
        let fields := if 0 < i ∧ start ≠ i then fields ++ [.text (substr format start i)] else fields
        match parsePlaceholder format i with
        | .ok (f, start) => parseLoop format fuel start start (fields ++ [f])
        | .error e => .error e
      else parseLoop format fuel (i + 1) start fields
    else .ok (copyRest format i start fields)

def accesslogParseFormat (format : Bytes) : Except String (List FormatField) :=
  parseLoop format format.length 0 0 []

/-! ## `log_access_open` -/

def timestampUnits : List (Bytes × TimeUnit) :=
  [(ascii "sec", .sec), (ascii "msec", .msec), (ascii "usec", .usec), (ascii "nsec", .nsec),
   (ascii "msec_frac", .frac .msec), (ascii "usec_frac", .frac .usec), (ascii "nsec_frac", .frac .nsec)]

def timestampOpt (string : Option Bytes) : Except String Opt :=
  match string with
  | none | some [] => .ok .zero
  | some s =>
    let (atBegin, ptr) :=
      if (ascii "begin:").isPrefixOf s then (true, s.drop 6)
      else if (ascii "end:").isPrefixOf s then (false, s.drop 4)
      else (false, s)
    match timestampUnits.lookup ptr with
    | some unit => .ok ⟨atBegin, some unit⟩
    | none =>
      if chr '%' ∈ ptr then .ok ⟨atBegin, none⟩
      else .error "constant string for time format (misspelled token? or missing '%'):"

/-- The unit of `%\x7bUNIT\x7dT`. -/
def timeUsedUnit (string : Option Bytes) : Except String TimeUnit :=
  let s := string.getD []
  if s = [] ∨ s = ascii "s" ∨ s = ascii "sec" then .ok .sec
  else if s = ascii "ms" ∨ s = ascii "msec" then .ok .msec
  else if s = ascii "us" ∨ s = ascii "usec" then .ok .usec
  else if s = ascii "ns" ∨ s = ascii "nsec" then .ok .nsec
  else .error "invalid time unit in %\x7bUNIT\x7dT:"

/-- One field, and the number of timestamps that use the cache (or could be taken for one that does). -/
def checkField (tcount : Nat) (f : FormatField) : Except String (FormatField × Nat) :=
  match f.type, f.field with
  | .format, .timestamp => do
    let opt ← timestampOpt f.string
    if opt.unit = none ∨ opt.unit = some .sec then
      if tcount + 1 > 1 then .error "you may not use strftime timestamp format %\x7b\x7dt twice in the same access log:"
      else return ({ f with opt := opt }, tcount + 1)
    else return ({ f with opt := opt }, tcount)
  | .format, .timeUsedUs => .ok ({ f with opt := ⟨f.opt.atBegin, some .usec⟩ }, tcount)
  | .format, .timeUsed => do
    let unit ← timeUsedUnit f.string
    return ({ f with opt := ⟨f.opt.atBegin, some unit⟩ }, tcount)
  | .format, .cookie => .ok (if f.string.getD [] = [] then { f with type := .string } else f, tcount)
  | _, _ => .ok (f, tcount)

def checkFields (tcount : Nat) : List FormatField → Except String (List FormatField)
  | [] => .ok []
  | f :: fields => do
    let (f, tcount) ← checkField tcount f
    let fields ← checkFields tcount fields
    return f :: fields

def logAccessOpen (format : Bytes) : Except String (List FormatField) := do
  let fields ← accesslogParseFormat format
  checkFields 0 fields

def defaultFormat : Bytes :=
  ascii "%h %V %u %t \"%r\" %>s %b \"%\x7bReferer\x7di\" \"%\x7bUser-Agent\x7di\""

/-! ## The text of a field -/

/-- **The text for which a field stands**: a string without `%`, or one of the three forms of a placeholder. -/
inductive Source : FormatField → Bytes → Prop
  | text {s : Bytes} (hne : s ≠ []) (hs : chr '%' ∉ s) : Source (.text s) s
  | plain {key : Byte} {field : FormatType} (hkey : typeOf key = some field) :
    Source (.placeholder none field) [chr '%', key]
  | arrow {c key : Byte} {field : FormatType} (hc : c = chr '>' ∨ c = chr '<') (hkey : typeOf key = some field) :
    Source (.placeholder none field) [chr '%', c, key]
  | named {name : Bytes} {key : Byte} {field : FormatType} (hne : name ≠ []) (hname : chr '\x7d' ∉ name)
    (hkey : typeOf key = some field) :
    Source (.placeholder (some name) field) (chr '%' :: chr '\x7b' :: (name ++ [chr '\x7d', key]))

def Covers (fields : List FormatField) (text : Bytes) : Prop :=
  ∃ texts : List Bytes, List.Forall₂ Source fields texts ∧ texts.flatten = text

variable {fields : List FormatField} {f : FormatField} {s format : Bytes}

theorem Covers.append {fields' : List FormatField} {t : Bytes} (h : Covers fields s) (h' : Covers fields' t) :
    Covers (fields ++ fields') (s ++ t) := by
  obtain ⟨texts, hall, rfl⟩ := h
  obtain ⟨texts', hall', rfl⟩ := h'
  exact ⟨texts ++ texts', List.rel_append hall hall', List.flatten_append⟩

theorem Source.covers (h : Source f s) : Covers [f] s :=
  ⟨[s], .cons h .nil, by simp⟩

theorem substr_append (done s rest : Bytes) : substr (done ++ (s ++ rest)) done.length (done.length + s.length) = s := by
  unfold substr
  rw [List.drop_left, Nat.add_sub_cancel_left, List.take_left]

theorem mem_fmap_ne {key : Byte} {field : FormatType} (h : typeOf key = some field) :
    key ≠ 0 ∧ key ≠ chr '>' ∧ key ≠ chr '<' ∧ key ≠ chr '\x7b' := by
  have hall : (fmap.all fun m => m.1 != 0 && m.1 != chr '>' && m.1 != chr '<' && m.1 != chr '\x7b') = true := rfl
  obtain ⟨m, hm, -⟩ := Option.map_eq_some_iff.mp h
  obtain rfl : m.1 = key := by simpa using List.find?_some hm
  simpa [and_assoc] using List.all_eq_true.mp hall m (List.mem_of_find?_eq_some hm)

theorem getD_at (done rest : Bytes) (c : Byte) : (done ++ c :: rest).getD done.length 0 = c := by
  simp [List.getD_eq_getElem?_getD]

theorem getD_behind (done rest : Bytes) (c : Byte) (j : Nat) :
    (done ++ c :: rest).getD (done.length + (j + 1)) 0 = rest.getD j 0 := by
  rw [List.getD_eq_getElem?_getD, List.getElem?_append_right (by omega), Nat.add_sub_cancel_left, List.getElem?_cons_succ,
    ← List.getD_eq_getElem?_getD]

theorem takeWhile_brace {name : Bytes} (h : chr '\x7d' ∉ name) (rest : Bytes) :
    (name ++ chr '\x7d' :: rest).takeWhile (· ≠ chr '\x7d') = name := by
  rw [List.takeWhile_append_of_pos fun c hc => decide_eq_true (ne_of_mem_of_not_mem hc h)]
  simp

theorem parsePlaceholder_name {name : Bytes} (hname : chr '\x7d' ∉ name) (done rest : Bytes) :
    parsePlaceholder (done ++ chr '%' :: chr '\x7b' :: (name ++ chr '\x7d' :: rest)) done.length =
      if rest.getD 0 0 = 0 then .error "%\x7b...\x7d has to be followed by a format-specifier"
      else if name = [] then .error "%\x7b...\x7d has to be contain a string"
      else
        match typeOf (rest.getD 0 0) with
        | some field => .ok (.placeholder (some name) field, done.length + 2 + name.length + 2)
        | none => .error "%\x7b...\x7d has to be followed by a valid format-specifier" := by
  obtain ⟨format, hformat⟩ : ∃ format, format = done ++ chr '%' :: chr '\x7b' :: (name ++ chr '\x7d' :: rest) :=
    ⟨_, rfl⟩
  have hfirst : format.getD (done.length + 1) 0 = chr '\x7b' := by
    rw [hformat]
    exact getD_behind done _ (chr '%') 0
  have hdrop : format.drop (done.length + 2) = name ++ chr '\x7d' :: rest := by
    simp [hformat, List.drop_append]
  have hlast : format.getD (done.length + 2 + name.length + 1) 0 = rest.getD 0 0 := by
    have h := getD_behind (done ++ [chr '%', chr '\x7b'] ++ name) rest (chr '\x7d') 0
    rw [List.length_append, List.length_append] at h
    simpa [hformat] using h
  have hlen : done.length + 2 + name.length ≠ format.length := by
    simp only [hformat, List.length_append, List.length_cons]
    omega
  have hempty : done.length + 2 + name.length = done.length + 2 ↔ name = [] := by
    rw [← List.length_eq_zero_iff]
    omega
  have hsubstr : substr format (done.length + 2) (done.length + 2 + name.length) = name := by
    rw [substr, hdrop, Nat.add_sub_cancel_left, List.take_left]
  rw [← hformat]
  unfold parsePlaceholder
  dsimp only
  rw [hfirst, hdrop, takeWhile_brace hname, if_neg (by decide), if_pos rfl, if_neg hlen, hlast, hsubstr]
  simp only [hempty]

/-- **A placeholder where it stands is read.** -/
theorem Source.parse (h : Source f (chr '%' :: s)) (done rest : Bytes) :
    parsePlaceholder (done ++ chr '%' :: (s ++ rest)) done.length = .ok (f, done.length + (s.length + 1)) := by
  cases h with
  | text _ hs => exact absurd List.mem_cons_self hs
  | @plain key field hkey =>
    obtain ⟨h0, h1, h2, h3⟩ := mem_fmap_ne hkey
    have hfirst := getD_behind done ([key] ++ rest) (chr '%') 0
    unfold parsePlaceholder
    dsimp only
    rw [hfirst]
    simp [h0, h1, h2, h3, hkey]
  | @arrow c key field hc hkey =>
    obtain ⟨h0, -⟩ := mem_fmap_ne hkey
    have hfirst := getD_behind done ([c, key] ++ rest) (chr '%') 0
    have hsecond := getD_behind done ([c, key] ++ rest) (chr '%') 1
    unfold parsePlaceholder
    dsimp only
    rw [hfirst, hsecond]
    simp [hc, h0, hkey]
  | @named name key field hne hname hkey =>
    obtain ⟨h0, -⟩ := mem_fmap_ne hkey
    have hsplit : chr '\x7b' :: (name ++ [chr '\x7d', key]) ++ rest =
        chr '\x7b' :: (name ++ chr '\x7d' :: key :: rest) := by
      simp
    rw [hsplit, parsePlaceholder_name hname, List.getD_cons_zero, if_neg h0, if_neg hne, hkey]
    simp only [List.length_cons, List.length_append, List.length_nil]
    congr 2
    omega

/-- **A placeholder that is read stands there.** -/
theorem parsePlaceholder_source {done rest : Bytes} {stop : Nat}
    (h : parsePlaceholder (done ++ chr '%' :: rest) done.length = .ok (f, stop)) :
    ∃ s rest', Source f (chr '%' :: s) ∧ rest = s ++ rest' ∧ stop = done.length + (s.length + 1) := by
  have hfirst := getD_behind done rest (chr '%') 0
  have hsecond := getD_behind done rest (chr '%') 1
  by_cases hbrace : ∃ rest', rest = chr '\x7b' :: rest'
  · -- a name in braces
    obtain ⟨rest, rfl⟩ := hbrace
    obtain ⟨name, hname⟩ : ∃ name, name = rest.takeWhile (· ≠ chr '\x7d') := ⟨_, rfl⟩
    have hnot : chr '\x7d' ∉ name := by
      intro hmem
      rw [hname] at hmem
      simpa using List.mem_takeWhile_imp hmem
    have hsplit : rest.takeWhile (· ≠ chr '\x7d') ++ rest.dropWhile (· ≠ chr '\x7d') = rest :=
      List.takeWhile_append_dropWhile
    rw [← hname] at hsplit
    rcases hrest : rest.dropWhile (· ≠ chr '\x7d') with _ | ⟨c, rest'⟩
    · -- no brace ends the name
      rw [hrest, List.append_nil] at hsplit
      have hdrop : (done ++ chr '%' :: chr '\x7b' :: rest).drop (done.length + 2) = rest := by
        simp [List.drop_append]
      unfold parsePlaceholder at h
      dsimp only at h
      rw [hfirst, hdrop, ← hname, hsplit, List.getD_cons_zero, if_neg (by decide), if_pos rfl,
        if_pos (by simp [Nat.add_comm, Nat.add_left_comm])] at h
      cases h
    · have hc : c = chr '\x7d' := by
        have := List.head?_dropWhile_not (· ≠ chr '\x7d') rest
        rw [hrest] at this
        simpa using this
      rw [hrest, hc] at hsplit
      rw [← hsplit, parsePlaceholder_name hnot] at h
      split_ifs at h with h0 hne
      split at h
      · next field hkey =>
        rcases rest' with _ | ⟨key, rest'⟩
        · exact absurd rfl h0
        cases h
        refine ⟨chr '\x7b' :: (name ++ [chr '\x7d', key]), rest', .named hne hnot hkey, ?_, ?_⟩
        · rw [← hsplit]
          simp
        · simp only [List.length_cons, List.length_append, List.length_nil]
          omega
      · cases h
  unfold parsePlaceholder at h
  dsimp only at h
  rw [hfirst, hsecond] at h
  rcases rest with _ | ⟨c, rest⟩
  · simp [chr] at h
  rw [List.getD_cons_zero, List.getD_cons_succ] at h
  have hne : c ≠ chr '\x7b' := fun hc => hbrace ⟨rest, by rw [hc]⟩
  rw [if_neg hne] at h
  split_ifs at h with hc h0 h0
  · -- the key stands behind a sign
    rcases rest with _ | ⟨key, rest⟩
    · exact absurd rfl h0
    rw [List.getD_cons_zero] at h
    split at h
    · next field hkey =>
      cases h
      exact ⟨[c, key], rest, .arrow hc hkey, rfl, rfl⟩
    · cases h
  · split at h
    · next field hkey =>
      cases h
      exact ⟨[c], rest, .plain hkey, rfl, rfl⟩
    · cases h

/-! ## The loop -/

/-- The field for the text in front of a placeholder, if there is any. -/
def flush (part : Bytes) : List FormatField := if part = [] then [] else [.text part]

theorem flush_covers {part : Bytes} (h : chr '%' ∉ part) : Covers (flush part) part := by
  unfold flush
  split_ifs with hpart
  · exact ⟨[], .nil, hpart.symm⟩
  · exact (Source.text hpart h).covers

theorem copyRest_eq (done part : Bytes) (fields : List FormatField) :
    copyRest (done ++ part) (done ++ part).length done.length fields = fields ++ flush part := by
  have hsubstr := substr_append done part []
  rw [List.append_nil] at hsubstr
  unfold copyRest flush
  rw [List.length_append, hsubstr]
  by_cases hpart : part = []
  · rw [if_neg (by simp [hpart]), if_pos hpart, List.append_nil]
  · have := List.length_pos_iff.mpr hpart
    rw [if_pos (by omega), if_neg hpart]

theorem parseLoop_end (fuel : Nat) (done part : Bytes) (fields : List FormatField) :
    parseLoop (done ++ part) fuel (done ++ part).length done.length fields = .ok (fields ++ flush part) := by
  cases fuel with
  | zero => rw [parseLoop, copyRest_eq]
  | succ fuel => rw [parseLoop, if_neg (Nat.lt_irrefl _), copyRest_eq]

theorem parseLoop_char (fuel : Nat) (done part rest : Bytes) {c : Byte} (hc : c ≠ chr '%') (fields : List FormatField) :
    parseLoop (done ++ part ++ c :: rest) (fuel + 1) (done ++ part).length done.length fields =
      parseLoop (done ++ (part ++ [c]) ++ rest) fuel (done ++ (part ++ [c])).length done.length fields := by
  have hsplit : done ++ (part ++ [c]) ++ rest = done ++ part ++ c :: rest := by simp
  have hget : (done ++ part ++ c :: rest).getD (done ++ part).length 0 = c := getD_at _ _ _
  rw [hsplit, parseLoop, if_pos (by simp), hget, if_neg hc, ← List.append_assoc, @List.length_append _ (done ++ part) [c]]
  rfl

theorem parseLoop_placeholder (fuel : Nat) (done part rest : Bytes) (fields : List FormatField) :
    parseLoop (done ++ part ++ chr '%' :: rest) (fuel + 1) (done ++ part).length done.length fields =
      match parsePlaceholder (done ++ part ++ chr '%' :: rest) (done ++ part).length with
      | .ok (f, start) => parseLoop (done ++ part ++ chr '%' :: rest) fuel start start (fields ++ flush part ++ [f])
      | .error e => .error e := by
  have hget : (done ++ part ++ chr '%' :: rest).getD (done ++ part).length 0 = chr '%' := getD_at _ _ _
  have hsubstr : substr (done ++ part ++ chr '%' :: rest) done.length (done ++ part).length = part := by
    rw [List.append_assoc, List.length_append, substr_append]
  have hflush : (if 0 < (done ++ part).length ∧ done.length ≠ (done ++ part).length then fields ++ [.text part]
      else fields) = fields ++ flush part := by
    unfold flush
    by_cases hpart : part = []
    · rw [if_neg (by simp [hpart]), if_pos hpart, List.append_nil]
    · have := List.length_pos_iff.mpr hpart
      rw [List.length_append, if_pos (by omega), if_neg hpart]
  rw [parseLoop, if_pos (by simp), hget, if_pos rfl, hsubstr]
  dsimp only
  rw [hflush]

/-- **What the loop keeps**: the fields stand for the text in front of `start`, and there is no `%` between `start` and the
place of the loop. -/
theorem parseLoop_covers (fuel : Nat) {done part rest : Bytes} {result : List FormatField}
    (hdone : Covers fields done) (hpart : chr '%' ∉ part) (hfuel : rest.length ≤ fuel)
    (h : parseLoop (done ++ part ++ rest) fuel (done ++ part).length done.length fields = .ok result) :
    Covers result (done ++ part ++ rest) := by
  induction fuel generalizing done part rest fields with
  | zero =>
    obtain rfl := List.length_eq_zero_iff.mp (Nat.le_zero.mp hfuel)
    rw [List.append_nil, parseLoop_end] at h
    cases h
    rw [List.append_nil]
    exact hdone.append (flush_covers hpart)
  | succ fuel ih =>
    rcases rest with _ | ⟨c, rest⟩
    · rw [List.append_nil, parseLoop_end] at h
      cases h
      rw [List.append_nil]
      exact hdone.append (flush_covers hpart)
    by_cases hc : c = chr '%'
    · subst hc
      rw [parseLoop_placeholder] at h
      split at h
      · next f stop hparse =>
        obtain ⟨s, rest', hsource, rfl, rfl⟩ := parsePlaceholder_source hparse
        have hsplit : done ++ part ++ chr '%' :: (s ++ rest') = done ++ part ++ (chr '%' :: s) ++ [] ++ rest' := by
          simp
        have hlen : (done ++ part).length + (s.length + 1) = (done ++ part ++ (chr '%' :: s)).length := by
          rw [@List.length_append _ (done ++ part), List.length_cons]
        rw [hsplit] at h ⊢
        rw [hlen] at h
        refine ih ((hdone.append (flush_covers hpart)).append hsource.covers) (by simp) ?_ (by rwa [List.append_nil] at h ⊢)
        simp only [List.length_cons, List.length_append] at hfuel
        omega
      · cases h
    · rw [parseLoop_char _ _ _ _ hc] at h
      have hsplit : done ++ part ++ c :: rest = done ++ (part ++ [c]) ++ rest := by simp
      rw [hsplit]
      refine ih hdone ?_ (Nat.le_of_succ_le_succ hfuel) h
      rw [List.mem_append, List.mem_singleton, not_or]
      exact ⟨hpart, Ne.symm hc⟩

/-- **The fields of a format stand for it.** -/
theorem accesslogParseFormat_covers (h : accesslogParseFormat format = .ok fields) : Covers fields format :=
  @parseLoop_covers [] format.length [] [] format fields ⟨[], .nil, rfl⟩ (by simp) (Nat.le_refl _) h

theorem prefix_append_text (b : Prop) [Decidable b] (fields : List FormatField) (s : Bytes) :
    fields <+: if b then fields ++ [.text s] else fields := by
  split_ifs
  · exact List.prefix_append _ _
  · exact List.prefix_refl _

theorem parseLoop_keeps (format : Bytes) (fuel : Nat) {i start : Nat} {result : List FormatField}
    (h : parseLoop format fuel i start fields = .ok result) : fields <+: result := by
  induction fuel generalizing i start fields with
  | zero =>
    cases h
    exact prefix_append_text _ _ _
  | succ fuel ih =>
    rw [parseLoop] at h
    by_cases hi : i < format.length
    · rw [if_pos hi] at h
      by_cases hc : format.getD i 0 = chr '%'
      · rw [if_pos hc] at h
        cases hparse : parsePlaceholder format i with
        | ok field =>
          rw [hparse] at h
          have hfields := ih h
          exact ((prefix_append_text _ _ _).trans (List.prefix_append _ _)).trans hfields
        | error e =>
          rw [hparse] at h
          cases h
      · rw [if_neg hc] at h
        exact ih h
    · rw [if_neg hi] at h
      cases h
      exact prefix_append_text _ _ _

theorem parseLoop_text {text : Bytes} (htext : chr '%' ∉ text) {fuel : Nat} (hfuel : text.length ≤ fuel)
    (done part rest : Bytes) (fields : List FormatField) :
    parseLoop (done ++ part ++ (text ++ rest)) fuel (done ++ part).length done.length fields =
      parseLoop (done ++ (part ++ text) ++ rest) (fuel - text.length) (done ++ (part ++ text)).length done.length
        fields := by
  induction text generalizing fuel part with
  | nil => simp
  | cons c text ih =>
    rw [List.mem_cons, not_or] at htext
    obtain ⟨fuel, rfl⟩ : ∃ n, fuel = n + 1 := ⟨fuel - 1, by rw [List.length_cons] at hfuel; omega⟩
    rw [List.cons_append, parseLoop_char _ _ _ _ (Ne.symm htext.1), ih htext.2 (Nat.le_of_succ_le_succ hfuel),
      List.append_assoc part, List.singleton_append, List.length_cons, Nat.add_sub_add_right]

/-- A placeholder is read where it stands, and the loop goes on behind it. -/
theorem parseLoop_source (hf : Source f (chr '%' :: s)) (fuel : Nat)
    (done part rest : Bytes) (fields : List FormatField) :
    parseLoop (done ++ part ++ chr '%' :: (s ++ rest)) (fuel + 1) (done ++ part).length done.length fields =
      parseLoop (done ++ part ++ (chr '%' :: s) ++ [] ++ rest) fuel (done ++ part ++ (chr '%' :: s) ++ []).length
        (done ++ part ++ (chr '%' :: s)).length (fields ++ flush part ++ [f]) := by
  have hsplit : done ++ part ++ chr '%' :: (s ++ rest) = done ++ part ++ (chr '%' :: s) ++ [] ++ rest := by
    simp
  have hlen : (done ++ part).length + (s.length + 1) = (done ++ part ++ (chr '%' :: s)).length := by
    rw [@List.length_append _ (done ++ part), List.length_cons]
  rw [parseLoop_placeholder, hf.parse, hsplit, hlen, List.append_nil (done ++ part ++ (chr '%' :: s))]

/-- **A placeholder behind pieces of the format is read**: each piece is text or a placeholder. -/
theorem mem_of_pieces {texts : List Bytes} (hpieces : ∀ t ∈ texts, ∃ f, Source f t) {fuel : Nat}
    {done part post : Bytes} {result : List FormatField} (hf : Source f (chr '%' :: s))
    (hfuel : (texts.flatten ++ chr '%' :: (s ++ post)).length ≤ fuel)
    (h : parseLoop (done ++ part ++ (texts.flatten ++ chr '%' :: (s ++ post))) fuel (done ++ part).length done.length
      fields = .ok result) : f ∈ result := by
  induction texts generalizing fuel done part fields with
  | nil =>
    obtain ⟨fuel, rfl⟩ : ∃ n, fuel = n + 1 := ⟨fuel - 1, by simp at hfuel; omega⟩
    rw [List.flatten_nil, List.nil_append, parseLoop_source hf] at h
    exact (parseLoop_keeps _ _ h).subset (by simp)
  | cons t texts ih =>
    rw [List.forall_mem_cons] at hpieces
    obtain ⟨⟨g, hg⟩, hpieces⟩ := hpieces
    rw [List.flatten_cons, List.append_assoc t] at h hfuel
    rw [List.length_append] at hfuel
    by_cases htext : chr '%' ∈ t
    · -- a placeholder
      obtain ⟨t, rfl⟩ : ∃ t', t = chr '%' :: t' := by
        cases hg with
        | text _ hs => exact absurd htext hs
        | plain => exact ⟨_, rfl⟩
        | arrow => exact ⟨_, rfl⟩
        | named => exact ⟨_, rfl⟩
      obtain ⟨fuel, rfl⟩ : ∃ n, fuel = n + 1 := ⟨fuel - 1, by rw [List.length_cons] at hfuel; omega⟩
      rw [List.cons_append, parseLoop_source hg] at h
      rw [List.length_cons] at hfuel
      exact ih hpieces (by omega) h
    · rw [parseLoop_text htext (by omega)] at h
      exact ih hpieces (by omega) h

/-! ## A format that is accepted -/

/-- What `log_access_open` may change of a field: the options; and a cookie without a name becomes a blank. -/
structure Checked (f f' : FormatField) : Prop where
  string : f'.string = f.string
  field : f'.field = f.field
  type : f'.type = f.type ∨ f.type = .format ∧ f'.type = .string ∧ f.field = .cookie ∧ f.string.getD [] = []
  cookie : f'.type = .format → f'.field = .cookie → f'.string.getD [] ≠ []

theorem Checked.opt (h : f.field ≠ .cookie) (opt : Opt) : Checked f { f with opt := opt } :=
  ⟨rfl, rfl, .inl rfl, fun _ hcookie => absurd hcookie h⟩

theorem checkField_checked {tcount tcount' : Nat} {f' : FormatField} (h : checkField tcount f = .ok (f', tcount')) :
    Checked f f' := by
  unfold checkField at h
  split at h
  · next htype hfield =>
    have hne : f.field ≠ .cookie := by rw [hfield]; decide
    cases hopt : timestampOpt f.string with
    | error e => rw [hopt] at h; cases h
    | ok opt =>
      rw [hopt] at h
      simp only [bind, Except.bind, pure, Except.pure] at h
      split_ifs at h
      · cases h
        exact .opt hne opt
      · cases h
        exact .opt hne opt
  · next htype hfield =>
    cases h
    exact .opt (by rw [hfield]; decide) _
  · next htype hfield =>
    cases hunit : timeUsedUnit f.string with
    | error e => rw [hunit] at h; cases h
    | ok unit =>
      rw [hunit] at h
      cases h
      exact .opt (by rw [hfield]; decide) _
  · next htype hfield =>
    split_ifs at h with hname
    · cases h
      exact ⟨rfl, rfl, .inr ⟨htype, rfl, hfield, hname⟩, nofun⟩
    · cases h
      exact ⟨rfl, rfl, .inl rfl, fun _ _ => hname⟩
  · next hcookie =>
    cases h
    exact ⟨rfl, rfl, .inl rfl, fun htype hfield => absurd hfield (hcookie htype)⟩

theorem checkFields_checked {tcount : Nat} {fields' : List FormatField}
    (h : checkFields tcount fields = .ok fields') : List.Forall₂ Checked fields fields' := by
  induction fields generalizing tcount fields' with
  | nil =>
    cases h
    exact .nil
  | cons f fields ih =>
    rw [checkFields] at h
    cases hfield : checkField tcount f with
    | error e => rw [hfield] at h; cases h
    | ok field =>
      rw [hfield] at h
      simp only [bind, Except.bind] at h
      cases hrest : checkFields field.2 fields with
      | error e => rw [hrest] at h; cases h
      | ok rest =>
        rw [hrest] at h
        cases h
        exact .cons (checkField_checked hfield) (ih hrest)

theorem logAccessOpen_parsed (h : logAccessOpen format = .ok fields) :
    ∃ parsed, accesslogParseFormat format = .ok parsed ∧ List.Forall₂ Checked parsed fields := by
  unfold logAccessOpen at h
  cases hparse : accesslogParseFormat format with
  | error e => rw [hparse] at h; cases h
  | ok parsed =>
    rw [hparse] at h
    exact ⟨parsed, rfl, checkFields_checked h⟩

/-- The fields cover the format: the texts for which they stand, one behind the other, are the format. -/
def CoversExactly (fields : List FormatField) (format : Bytes) : Prop :=
  ∃ texts : List Bytes, List.Forall₂ (fun f s => ∃ g, Source g s ∧ Checked g f) fields texts ∧ texts.flatten = format

/-- **The fields of a format that is accepted cover it.** -/
theorem logAccessOpen_covers (h : logAccessOpen format = .ok fields) : CoversExactly fields format := by
  obtain ⟨parsed, hparse, hchecked⟩ := logAccessOpen_parsed h
  obtain ⟨texts, hsource, hflat⟩ := accesslogParseFormat_covers hparse
  refine ⟨texts, ?_, hflat⟩
  clear hflat hparse h
  induction hchecked generalizing texts with
  | nil =>
    cases hsource
    exact .nil
  | cons hfield _ ih =>
    cases hsource with
    | cons hs hrest => exact .cons ⟨_, hs, hfield⟩ (ih _ hrest)

/-! ## Placeholders without a name -/

/-- The keys for which a name is looked up. -/
def needsName : FormatType → Bool
  | .header | .responseHeader | .env => true
  | _ => false

def FormatField.Nameless (f : FormatField) : Prop := f.type = .format ∧ needsName f.field = true ∧ f.string = none

/-- A placeholder that looks up a name stands somewhere in the format without one: `%i`, `%>i` or `%<i`, and so on. -/
def HasNameless (format : Bytes) : Prop :=
  ∃ (texts : List Bytes) (field : FormatType) (s post : Bytes), (∀ t ∈ texts, ∃ f, Source f t) ∧
    needsName field = true ∧ Source (.placeholder none field) s ∧ format = texts.flatten ++ (s ++ post)

/-- An element of the one list, and where its element of the other list stands. -/
theorem forall₂_split {α β : Type} {R : α → β → Prop} {l : List α} {u : List β} (h : List.Forall₂ R l u) {a : α}
    (ha : a ∈ l) : ∃ u₁ b u₂, u = u₁ ++ b :: u₂ ∧ R a b := by
  induction h with
  | nil => cases ha
  | @cons a' b l u hab _ ih =>
    rcases List.mem_cons.mp ha with rfl | ha
    · exact ⟨[], b, u, rfl, hab⟩
    · obtain ⟨u₁, b', u₂, rfl, hab'⟩ := ih ha
      exact ⟨b :: u₁, b', u₂, rfl, hab'⟩

/-- A placeholder is written behind a `%`. -/
theorem Source.placeholder_text (h : Source f s) (htype : f.type = .format) : ∃ s', s = chr '%' :: s' := by
  cases h with
  | text => cases htype
  | plain => exact ⟨_, rfl⟩
  | arrow => exact ⟨_, rfl⟩
  | named => exact ⟨_, rfl⟩

theorem Source.eq_placeholder (h : Source f s) (hnone : f.string = none) : f = .placeholder none f.field := by
  cases h with
  | text => cases hnone
  | plain => rfl
  | arrow => rfl
  | named => cases hnone

/-- **Where a placeholder without a name is read, there is a field without one.** -/
theorem nameless_of_pieces (h : logAccessOpen format = .ok fields) :
    (∃ f ∈ fields, f.Nameless) ↔ HasNameless format := by
  obtain ⟨parsed, hparse, hchecked⟩ := logAccessOpen_parsed h
  constructor
  · rintro ⟨f, hmem, htype, hneeds, hnone⟩
    obtain ⟨texts, hsource, rfl⟩ := accesslogParseFormat_covers hparse
    obtain ⟨pre, g, post, hsplit, hfield⟩ := forall₂_split hchecked.flip hmem
    have hg : g ∈ parsed := by
      rw [hsplit]
      exact List.mem_append_right _ List.mem_cons_self
    obtain ⟨texts₁, s, texts₂, rfl, hs⟩ := forall₂_split hsource hg
    rw [hfield.string] at hnone
    rw [hfield.field] at hneeds
    rw [hs.eq_placeholder hnone] at hs
    refine ⟨texts₁, g.field, s, texts₂.flatten, fun t ht => ?_, hneeds, hs, by simp⟩
    obtain ⟨-, f', -, -, hf'⟩ := forall₂_split hsource.flip (List.mem_append_left _ ht)
    exact ⟨f', hf'⟩
  · rintro ⟨texts, field, s, post, hpieces, hneeds, hsource, rfl⟩
    obtain ⟨s, rfl⟩ := hsource.placeholder_text rfl
    have hmem : FormatField.placeholder none field ∈ parsed :=
      @mem_of_pieces [] _ s texts hpieces _ [] [] post parsed hsource (Nat.le_refl _) hparse
    obtain ⟨pre, f, post', rfl, hfield⟩ := forall₂_split hchecked hmem
    refine ⟨f, List.mem_append_right _ List.mem_cons_self, ?_, by rwa [hfield.field], hfield.string⟩
    rcases hfield.type with htype | ⟨-, -, hcookie, -⟩
    · exact htype
    · rw [show field = .cookie from hcookie] at hneeds
      cases hneeds

end Lighttpd.Accesslog
