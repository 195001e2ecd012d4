import Lighttpd.Request.HeaderLines

/-!
# The grammar of the request line (`request.c`)

`readRequestLine` reads a line by the grammar

`Method SP request-target SP "HTTP/" 1*DIGIT "." 1*DIGIT`

and `requestLine_read` says that the parser accepts no other lines, and takes the method and the version that are
written. Left out are lines with a NUL, with a sign or white space in the version, or with a number that does not fit
in an `int` (`plainLine`).
-/

namespace Lighttpd

namespace Request

/-! ## The grammar -/

/-- `HTTP-Version`: the major and the minor number. -/
def readVersion (proto : Bytes) : Option (Nat × Nat) :=
  match proto.splitOn (chr '.') with
  | [name, minor] =>
    if (ascii "HTTP/").isPrefixOf name then
      match decimalValue (name.drop 5), decimalValue minor with
      | some x, some y => some (x, y)
      | _, _ => none
    else none
  | _ => none

/-- **A request line**: a method, a target and a version. -/
def readRequestLine (line : Bytes) : Option (Method × Bytes × Nat × Nat) :=
  match line.splitOn (chr ' ') with
  | [m, u, v] =>
    match httpMethods.find? fun method => m == ascii method.2, readVersion v with
    | some method, some version => if u.isEmpty then none else some (method.1, u, version)
    | _, _ => none
  | _ => none

/-- A version without signs and white space, whose numbers fit in an `int`. -/
def plainVersion (proto : Bytes) : Bool :=
  proto.all (fun c => !isspace c && c != chr '+' && c != chr '-') &&
    ((proto.drop 5).splitOn (chr '.')).all fun s => (decimalValue s).all (· < 2 ^ 31)

def plainLine (line : Bytes) : Bool :=
  decide ((0 : Byte) ∉ line) && ((line.splitOn (chr ' ')).getLast?).all plainVersion

/-! ## Numbers -/

/-- No sign and no white space. -/
def PlainNumber (s : Bytes) : Prop := (0 : Byte) ∉ s ∧ ∀ c ∈ s, isspace c = false ∧ c ≠ chr '+' ∧ c ≠ chr '-'

variable {proto s : Bytes} {x : Int}

/-- **`strtol` of a plain number reads its digits.** -/
theorem strtol_plain (hplain : PlainNumber s) (hne : s ≠ []) (h : strtol 10 s = (x, [])) :
    ∃ n, decimalValue s = some n ∧ x = min (n : Int) longMax := by
  obtain ⟨hnul, hchar⟩ := hplain
  have hspace : s.dropWhile isspace = s := dropWhile_eq_self fun c hc => (hchar c (List.mem_of_mem_head? hc)).1
  have hsign : readSign s = (false, s) := by
    unfold readSign
    split
    · exact absurd rfl (hchar _ List.mem_cons_self).2.2
    · exact absurd rfl (hchar _ List.mem_cons_self).2.1
    · rfl
  simp only [strtol, cstr_eq_self hnul, hspace, hsign, if_neg (show ¬10 = 0 by decide)] at h
  split at h
  · exact absurd (Prod.mk.inj h).2 hne
  · rw [if_neg (by decide)] at h
    obtain ⟨hx, hrest⟩ := Prod.mk.inj h
    have hread : readDigits 10 0 s = ((readDigits 10 0 s).1, []) := Prod.ext rfl hrest
    obtain ⟨hall, hn⟩ := readDigits_all hread
    refine ⟨(readDigits 10 0 s).1, ?_, hx.symm⟩
    rw [decimalValue, if_pos ⟨hne, hall⟩, hn]

/-- A number that fits in an `int` is not changed. -/
theorem toInt_eq {n : Nat} (h : n < 2 ^ 31) : toInt (min (n : Int) longMax) = n := by
  have hmin : min (n : Int) longMax = n := Int.min_eq_left (by unfold longMax; omega)
  rw [toInt, hmin, Int.bmod_def]
  omega

/-! ## Splitting -/

theorem IsRequestLine.splitOn {line m u v : Bytes} (h : IsRequestLine line m u v) :
    line.splitOn (chr ' ') = [m, u, v] := by
  rw [h.line_eq, List.splitOn_append_cons_self_of_not_mem h.method,
    List.splitOn_append_cons_self_of_not_mem h.uri, List.splitOn_eq_singleton h.proto]

theorem not_dot_of_decimal {n : Nat} (h : decimalValue s = some n) : chr '.' ∉ s := by
  intro hmem
  have hdigit := (decimalValue_digits h).2 _ hmem
  revert hdigit
  decide

/-! ## The version -/

theorem plainNumber_of_plain (hnul : (0 : Byte) ∉ proto) (hplain : plainVersion proto = true)
    (hs : ∀ c ∈ s, c ∈ proto) : PlainNumber s := by
  simp only [plainVersion, Bool.and_eq_true, List.all_eq_true] at hplain
  refine ⟨fun h0 => hnul (hs 0 h0), fun c hc => ?_⟩
  have hchar := hplain.1 c (hs c hc)
  simp only [Bool.not_eq_true', bne_iff_ne] at hchar
  exact ⟨hchar.1.1, hchar.1.2, hchar.2⟩

theorem protoVersion_parts {y : Int} (h : protoVersion proto = some (x, y)) :
    ∃ major minor a b, proto = ascii "HTTP/" ++ (major ++ chr '.' :: minor) ∧ chr '.' ∉ major ∧ major ≠ [] ∧ minor ≠ [] ∧
      strtol 10 major = (a, []) ∧ strtol 10 minor = (b, []) ∧ x = toInt a ∧ y = toInt b := by
  unfold protoVersion at h
  split at h
  · cases h
  · rename_i hname
    rw [Bool.not_eq_true, Bool.not_eq_false'] at hname
    obtain ⟨rest, rfl⟩ := List.isPrefixOf_iff_prefix.mp hname
    rw [show (ascii "HTTP/" ++ rest).drop 5 = rest from rfl] at h
    dsimp only at h
    cases hdot : rest.idxOf? (chr '.') with
    | none => simp [hdot] at h
    | some k =>
      obtain ⟨hrest, hmajor⟩ := idxOf?_split hdot
      have hlen : k < rest.length := (List.idxOf?_eq_some_iff.mp hdot).1
      cases k with
      | zero => simp [hdot] at h
      | succ k =>
        simp only [hdot] at h
        split at h
        · cases h
        · rename_i hminor
          split at h
          · cases h
          · rename_i herr
            rw [not_or, not_not, not_not] at herr
            obtain ⟨hx, hy⟩ : toInt _ = x ∧ toInt _ = y := by simpa using h
            refine ⟨_, _, _, _, congrArg _ hrest, hmajor, ?_, by simpa using hminor, Prod.ext rfl herr.1,
              Prod.ext rfl herr.2, hx.symm, hy.symm⟩
            intro hnil
            have := congrArg List.length hnil
            rw [List.length_take, List.length_nil] at this
            omega

/-- **A plain version is read as it is written.** -/
theorem protoVersion_plain (hnul : (0 : Byte) ∉ proto) (hplain : plainVersion proto = true)
    {y : Int} (h : protoVersion proto = some (x, y)) :
    ∃ n k : Nat, readVersion proto = some (n, k) ∧ x = n ∧ y = k := by
  obtain ⟨major, minor, a, b, rfl, hdot, hmajor, hminor, ha, hb, rfl, rfl⟩ := protoVersion_parts h
  have hmem : ∀ c, c ∈ major ∨ c ∈ minor → c ∈ ascii "HTTP/" ++ (major ++ chr '.' :: minor) := by
    intro c hc
    simp only [List.mem_append, List.mem_cons]
    tauto
  obtain ⟨n, hn, rfl⟩ := strtol_plain (plainNumber_of_plain hnul hplain fun c hc => hmem c (.inl hc)) hmajor ha
  obtain ⟨k, hk, rfl⟩ := strtol_plain (plainNumber_of_plain hnul hplain fun c hc => hmem c (.inr hc)) hminor hb
  have hfits := (Bool.and_eq_true _ _ ▸ hplain).2
  rw [show (ascii "HTTP/" ++ (major ++ chr '.' :: minor)).drop 5 = major ++ chr '.' :: minor from rfl,
    List.splitOn_append_cons_self_of_not_mem hdot, List.splitOn_eq_singleton (not_dot_of_decimal hk)] at hfits
  simp only [List.all_cons, hn, hk, Option.all_some, List.all_nil, Bool.and_true, Bool.and_eq_true,
    decide_eq_true_eq] at hfits
  refine ⟨n, k, ?_, toInt_eq hfits.1, toInt_eq hfits.2⟩
  have hname : chr '.' ∉ ascii "HTTP/" ++ major := by
    rw [List.mem_append, not_or]
    exact ⟨by decide, hdot⟩
  rw [readVersion, ← List.append_assoc, List.splitOn_append_cons_self_of_not_mem hname,
    List.splitOn_eq_singleton (not_dot_of_decimal hk)]
  dsimp only
  rw [if_pos (by simp), show (ascii "HTTP/" ++ major).drop 5 = major from rfl, hn, hk]

/-! ## The request line -/

def versionOf (allowHttp11 : Bool) (version : Int × Int) : Option Version :=
  if version = (1, 1) then some (if allowHttp11 then .http11 else .http10)
  else if version = (1, 0) then some .http10
  else none

/-- The connection behind a request line with this method and this version. -/
def Con.passLine (con : Con) (l : ReqLine) (method : Method) (version : Version) : Con :=
  { con with
    request := { con.request with
      requestLine := l.line
      httpMethod := some method
      httpVersion := some version
      uri := (splitUri l.uri).2
      origUri := (splitUri l.uri).2 }
    httpStatus := 0 }

/-- **What the end of the request line accepts, and what it leaves.** -/
theorem endOfRequestLine_request (o : Options) (con : Con) (l : ReqLine) :
    Ends (fun _ => True) (fun r => ∃ method version v, getHttpMethodKey l.method = some method ∧
      protoVersion (cstr l.token) = some version ∧ versionOf o.allowHttp11 version = some v ∧
      r = (con.passLine l method v, (splitUri l.uri).1)) (endOfRequestLine o con l) := by
  have huri : ∀ con' : Con, Ends (fun _ => True) (fun r => r =
      ({ con' with
        request := { con'.request with uri := (splitUri l.uri).2, origUri := (splitUri l.uri).2 }
        httpStatus := 0 }, (splitUri l.uri).1)) (setUri o con' l.uri) := by
    intro con'
    unfold setUri
    exact Ends.ite (fun _ => trivial) fun _ => rfl
  unfold endOfRequestLine
  refine Ends.ite (fun _ => trivial) fun _ => ?_
  cases hm : getHttpMethodKey l.method with
  | none => trivial
  | some method =>
    dsimp only
    unfold setVersion
    cases hp : protoVersion (cstr l.token) with
    | none => trivial
    | some version =>
      refine Ends.ite (fun h11 => ?_) fun h11 => Ends.ite (fun h10 => ?_) fun _ => trivial
      · refine (huri _).mono (fun _ h => h) fun r h => ⟨method, version, _, rfl, rfl, ?_, h⟩
        rw [versionOf, if_pos h11]
      · refine (huri _).mono (fun _ h => h) fun r h => ⟨method, version, _, rfl, rfl, ?_, h⟩
        rw [versionOf, if_neg h11, if_pos h10]

/-- The request behind its request line, unless the line is answered with an error. -/
def passedLine (o : Options) (con : Con) : Option Request :=
  match requestLineLoop o con ⟨0, [], [], [], []⟩ (parseRequest con) with
  | .ok l => if l.con.request.uri.isEmpty then none else some l.con.request
  | .error _ => none

/-- **The line is a request line for the version 1.0 or 1.1**, and the request has its method and its version; with
`allowHttp11` off, 1.1 counts as 1.0. -/
def LineRead (allowHttp11 : Bool) (line : Bytes) (r : Request) : Prop :=
  ∃ method target major minor, readRequestLine line = some (method, target, major, minor) ∧
    r.httpMethod = some method ∧
    (major = 1 ∧ minor = 1 ∧ r.httpVersion = some (if allowHttp11 then .http11 else .http10) ∨
      major = 1 ∧ minor = 0 ∧ r.httpVersion = some .http10)

theorem lineRead_of_words {line m u : Bytes} (hwords : IsRequestLine line m u proto) (hplain : plainLine line = true)
    {allowHttp11 : Bool} {r : Request} (h : ∃ method version v, getHttpMethodKey m = some method ∧
      protoVersion (cstr proto) = some version ∧ versionOf allowHttp11 version = some v ∧ r.httpMethod = some method ∧
      r.httpVersion = some v ∧ r.uri = (splitUri u).2) (huri : r.uri ≠ []) : LineRead allowHttp11 line r := by
  obtain ⟨method, ⟨x, y⟩, v, hm, hp, hv, hrm, hrv, hu⟩ := h
  simp only [plainLine, hwords.splitOn, List.getLast?_cons_cons, List.getLast?_singleton, Option.all_some,
    Bool.and_eq_true, decide_eq_true_eq] at hplain
  obtain ⟨hnul, hproto⟩ := hplain
  have hnul' : ∀ s : Bytes, (∀ c ∈ s, c ∈ line) → (0 : Byte) ∉ s := fun s hs h0 => hnul (hs 0 h0)
  have hmem : ∀ c, c ∈ m ∨ c ∈ proto → c ∈ line := by
    intro c hc
    rw [hwords.line_eq]
    simp only [List.mem_append, List.mem_cons]
    tauto
  have hnulProto := hnul' proto fun c hc => hmem c (.inr hc)
  rw [cstr_eq_self hnulProto] at hp
  obtain ⟨n, k, hread, rfl, rfl⟩ := protoVersion_plain hnulProto hproto hp
  rw [getHttpMethodKey, cstr_eq_self (hnul' m fun c hc => hmem c (.inl hc))] at hm
  obtain ⟨entry, hentry, rfl⟩ := Option.map_eq_some_iff.mp hm
  have hne : u.isEmpty = false := by
    rw [List.isEmpty_eq_false_iff]
    rintro rfl
    rw [hu] at huri
    exact huri (by decide)
  refine ⟨entry.1, u, n, k, ?_, hrm, ?_⟩
  · simp [readRequestLine, hwords.splitOn, hentry, hread, hne]
  · unfold versionOf at hv
    split at hv
    · rename_i h11
      obtain ⟨hn, hk⟩ := Prod.mk.inj h11
      exact .inl ⟨by omega, by omega, hrv.trans hv.symm⟩
    · split at hv
      · rename_i h10
        obtain ⟨hn, hk⟩ := Prod.mk.inj h10
        exact .inr ⟨by omega, by omega, hrv.trans hv.symm⟩
      · cases hv

theorem passedLine_some {o : Options} {con : Con} {r : Request} (h : passedLine o con = some r) :
    ∃ l, requestLineLoop o con ⟨0, [], [], [], []⟩ (parseRequest con) = .ok l ∧ l.con.request = r ∧ r.uri ≠ [] := by
  unfold passedLine at h
  split at h
  · rename_i l hloop
    split at h
    · cases h
    · rename_i huri
      obtain rfl := Option.some.inj h
      exact ⟨l, hloop, rfl, fun hnil => huri (by rw [hnil]; rfl)⟩
  · cases h

/-- **The request lines that the parser accepts.** -/
theorem requestLine_read (o : Options) (con : Con) (requestCount : Nat) (block : Bytes) (r : Request)
    (h : passedLine o (nextRequest con requestCount block) = some r) :
    ∃ line, (blockLines (parseRequest (nextRequest con requestCount block))).head? = some line ∧
      (plainLine line = true → LineRead o.allowHttp11 line r) := by
  obtain ⟨l, hloop, rfl, huri⟩ := passedLine_some h
  have hnone : (nextRequest con requestCount block).request.uri = [] := rfl
  generalize nextRequest con requestCount block = con₀ at hloop hnone ⊢
  obtain ⟨line, w, hblock, hfeed, hend, -⟩ := requestLineLoop_ok hnone hloop huri
  refine ⟨line, by rw [hblock]; rfl, fun hplain => ?_⟩
  have hstage := ((endOfRequestLine_keeps o con₀ w).of_ok hend).1
  obtain ⟨m, u, proto, hwords, rfl⟩ := isRequestLine_of_feed hfeed hstage
  obtain ⟨method, version, v, hm, hp, hv, hcon⟩ := (endOfRequestLine_request o con₀ _).of_ok hend
  refine lineRead_of_words hwords hplain ⟨method, version, v, hm, hp, hv, ?_, ?_, ?_⟩ huri
  · rw [(Prod.mk.inj hcon).1]
    rfl
  · rw [(Prod.mk.inj hcon).1]
    rfl
  · rw [(Prod.mk.inj hcon).1]
    rfl

def getBlock : Bytes := ascii "GET /a HTTP/1.1\r\nHost: a\r\n\r\n"

theorem requestLine_read_sample : ∃ r, passedLine sampleOptions (nextRequest (sampleCon "") 1 getBlock) = some r ∧
    LineRead true (ascii "GET /a HTTP/1.1") r := by
  obtain ⟨r, hr⟩ : ∃ r, passedLine sampleOptions (nextRequest (sampleCon "") 1 getBlock) = some r :=
    Option.isSome_iff_exists.mp (by decide +kernel)
  obtain ⟨line, hline, hread⟩ := requestLine_read sampleOptions (sampleCon "") 1 getBlock r hr
  have hfirst : (blockLines (parseRequest (nextRequest (sampleCon "") 1 getBlock))).head? =
      some (ascii "GET /a HTTP/1.1") := by decide +kernel
  obtain rfl := Option.some.inj (hline.symm.trans hfirst)
  exact ⟨r, hr, hread (by decide)⟩

def http10Options : Options := { sampleOptions with allowHttp11 := false }

/-- **Without `allow_http11`, a request for the version 1.1 is one for 1.0.** -/
theorem version_not_written : ∃ r, passedLine http10Options (nextRequest (sampleCon "") 1 getBlock) = some r ∧
    (blockLines (parseRequest (nextRequest (sampleCon "") 1 getBlock))).head? = some (ascii "GET /a HTTP/1.1") ∧
    ¬LineRead true (ascii "GET /a HTTP/1.1") r := by
  obtain ⟨r, hr⟩ : ∃ r, passedLine http10Options (nextRequest (sampleCon "") 1 getBlock) = some r :=
    Option.isSome_iff_exists.mp (by decide +kernel)
  refine ⟨r, hr, by decide +kernel, ?_⟩
  rintro ⟨method, target, major, minor, hread, -, hversion⟩
  have hversion' : (passedLine http10Options (nextRequest (sampleCon "") 1 getBlock)).bind Request.httpVersion =
      some .http10 := by decide +kernel
  have hread' : readRequestLine (ascii "GET /a HTTP/1.1") = some (.get, ascii "/a", 1, 1) := by decide
  rw [hr, Option.bind_some] at hversion'
  rw [hread'] at hread
  obtain ⟨-, -, rfl, rfl⟩ : Method.get = method ∧ ascii "/a" = target ∧ 1 = major ∧ 1 = minor := by simpa using hread
  rcases hversion with ⟨-, -, h11⟩ | ⟨-, h0, -⟩
  · rw [hversion'] at h11
    cases h11
  · cases h0

end Request

end Lighttpd
