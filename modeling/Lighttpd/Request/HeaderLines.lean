import Lighttpd.Request.Accepted

/-!
# The header line by line (`request.c`)

The loop over the header reads one byte after the other. Here it reads one line after the other:

* `readLine` is the loop inside of a line, and `headerLine` is a whole line with its CRLF;
* `headerLoop_lines`: the loop over the header does what the lines of the header do, one behind the other;
* `accepted_lines`: so does the parser, up to the post-processing.
-/

namespace Lighttpd

namespace Request

/-! ## A line -/

/-- The loop over the header inside of a line. -/
def readLine (o : Options) (con : Con) (m : Mode) : Bytes → Except Con Mode
  | [] => .ok m
  | c :: s =>
    if c = chr '\r' then .error (con.reject 400)
    else
      match headerChar o con c m with
      | .error con => .error con
      | .ok m => readLine o con m s

def headerLine (o : Options) (reqlineHost : Bool) (v : Vars) (line : Bytes) : Except Con Vars :=
  match readLine o v.con (.key []) line with
  | .error con => .error con
  | .ok m => if crlf m = .line then endOfLine o reqlineHost v m else .error (v.con.reject 400)

variable {o : Options} {con : Con} {host : Bool} {v v' : Vars} {m m' : Mode} {pre s : Bytes}

theorem readLine_append (h : readLine o con m pre = .ok m') (s : Bytes) :
    readLine o con m (pre ++ s) = readLine o con m' s := by
  induction pre generalizing m with
  | nil =>
    cases h
    rfl
  | cons c pre ih =>
    rw [readLine] at h
    split at h
    · cases h
    · rename_i hc
      cases hchar : headerChar o con c m with
      | error e => simp [hchar] at h
      | ok m₁ =>
        simp only [hchar] at h
        rw [List.cons_append, readLine, if_neg hc, hchar]
        exact ih h

theorem readLine_concat (h : readLine o con m pre = .ok m') {c : Byte} (hc : c ≠ chr '\r') {m'' : Mode}
    (hchar : headerChar o con c m' = .ok m'') : readLine o con m (pre ++ [c]) = .ok m'' := by
  rw [readLine_append h]
  simp [readLine, hc, hchar]

theorem readLine_modeOf (h : readLine o con m s = .ok m') (hm : ModeOf pre m) : ModeOf (pre ++ s) m' := by
  induction s generalizing m pre with
  | nil =>
    cases h
    simpa using hm
  | cons c s ih =>
    rw [readLine] at h
    split at h
    · cases h
    · cases hchar : headerChar o con c m with
      | error e => simp [hchar] at h
      | ok m₁ =>
        simp only [hchar] at h
        simpa using ih h ((headerChar_modeOf o con hm).of_ok hchar)

theorem modeOf_start : ModeOf [] (.key []) := ⟨rfl, by simp⟩

theorem crlf_header (h : crlf m = .header) : m = .key [] := by
  cases m with
  | key token =>
    rw [crlf_key] at h
    split at h
    · rename_i hnil
      rw [List.isEmpty_iff.mp hnil]
    · cases h
  | colon key => cases h
  | value key value => cases h
  | folding value => cases h

theorem readLine_ne_nil (h : readLine o con (.key []) pre = .ok m) (hm : crlf m = .line) : pre ≠ [] := by
  rintro rfl
  cases h
  cases hm

theorem readLine_key_nil (h : readLine o con (.key []) pre = .ok (.key [])) : pre = [] :=
  (readLine_modeOf h modeOf_start).1

/-! ## The loop -/

/-- **The loop over the header takes the lines up to the empty line**, when `pre` has been read of the first one. -/
theorem headerLoop_lines (h : readLine o v.con (.key []) pre = .ok m) {rest : Bytes}
    (hloop : headerLoop o host m v s = .ok (v', rest)) :
    ∃ ls more, Lines.linesFrom (chr '\r') (chr '\n') pre s = ls ++ [] :: more ∧ (∀ l ∈ ls, l ≠ []) ∧
      ls.foldlM (headerLine o host) v = .ok v' := by
  fun_induction headerLoop o host m v s generalizing pre with
  | case1 => cases hloop
  | case2 m v m' hchar =>
    obtain ⟨con', hcon, -⟩ := headerChar_nul o v.con m
    rw [hcon] at hchar
    cases hchar
  | case3 => cases hloop
  | case4 => cases hloop
  | case5 m v d s' hd hcr =>
    rw [not_not] at hd
    subst hd
    obtain rfl := crlf_header hcr
    obtain rfl := readLine_key_nil h
    cases hloop
    exact ⟨[], Lines.lines (chr '\r') (chr '\n') rest, Lines.linesFrom_end _ _ _ _, by simp, rfl⟩
  | case6 => cases hloop
  | case7 => cases hloop
  | case8 m v d s' hd hcr v₁ hend ih =>
    rw [not_not] at hd
    subst hd
    have hstart : readLine o v₁.con (.key []) [] = .ok (.key []) := rfl
    obtain ⟨ls, more, hlines, hls, hfold⟩ := ih hstart hloop
    refine ⟨pre :: ls, more, ?_, ?_, ?_⟩
    · rw [Lines.linesFrom_end, Lines.lines, hlines, List.cons_append]
    · intro l hl
      rcases List.mem_cons.mp hl with rfl | hl
      · exact readLine_ne_nil h hcr
      · exact hls l hl
    · have hline : headerLine o host v pre = .ok v₁ := by simp [headerLine, h, hcr, hend]
      rw [List.foldlM_cons, hline]
      exact hfold
  | case9 => cases hloop
  | case10 m v c s hc m' hchar ih =>
    rw [Lines.linesFrom_cons pre s hc]
    exact ih (readLine_concat h hc hchar) hloop

/-! ## The parser -/

/-- The variables in front of the header. -/
def varsOf (con : Con) (reqlineHost : Option Bytes) : Vars := ⟨insertReqlineHost con reqlineHost, none, .unset, false⟩

/-- What an accepted block has gone through: its request line, the lines of its header, and the post-processing. -/
structure Accepts (o : Options) (con : Con) (block : Bytes) (r : Bool × Con) (line : Bytes) (l : ReqLine) (con' : Con)
    (reqlineHost : Option Bytes) (v : Vars) : Prop where
  head : (blockLines block).head? = some line
  loop : ∃ rest, requestLineLoop o con ⟨0, [], [], [], []⟩ block = .ok ⟨con', reqlineHost, [], rest⟩
  feed_eq : feed ⟨0, [], [], [], []⟩ line = some l
  line_eq : endOfRequestLine o con l = .ok (con', reqlineHost)
  uri : con'.request.uri ≠ []
  lines : (headerLines block).foldlM (headerLine o reqlineHost.isSome) (varsOf con' reqlineHost) = .ok v
  post : ∃ n, postProcess o { v with con := { v.con with headerLen := n } } = .ok r

/-- The request line of a block, unless the line is answered with an error. -/
theorem requestLineLoop_ok (huri : con.request.uri = []) {l : LineEnd}
    (h : requestLineLoop o con ⟨0, [], [], [], []⟩ (parseRequest con) = .ok l) (hne : l.con.request.uri ≠ []) :
    ∃ line w, blockLines (parseRequest con) = line :: blockLines l.rest ∧ feed ⟨0, [], [], [], []⟩ line = some w ∧
      endOfRequestLine o con w = .ok (l.con, l.reqlineHost) ∧ l.token = [] := by
  have hline := requestLineLoop_lines o con ⟨0, [], [], [], []⟩ [] (parseRequest con)
  unfold LineOutcome at hline
  rw [h] at hline
  split at hline
  · rcases hline with hline | ⟨token, hline⟩
    · cases hline
    · cases hline
      exact absurd huri hne
  · rename_i line more hlines
    obtain ⟨t, rest, ht, hmore, hline⟩ := hline
    rw [List.nil_append] at ht
    subst ht
    cases hfeed : feed ⟨0, [], [], [], []⟩ line with
    | none => simp [hfeed] at hline
    | some w =>
      simp only [hfeed] at hline
      cases hend : endOfRequestLine o con w with
      | error e => simp [hend, Except.map] at hline
      | ok r =>
        simp only [hend, Except.map, Except.ok.injEq] at hline
        subst hline
        exact ⟨line, w, by rw [blockLines, Lines.lines, hlines, hmore], hfeed, hend, rfl⟩

theorem headerLoop_headerLines {block line rest rest' : Bytes} (hblock : blockLines block = line :: blockLines rest)
    (h : headerLoop o host (.key []) v rest = .ok (v', rest')) :
    (headerLines block).foldlM (headerLine o host) v = .ok v' := by
  have hstart : readLine o v.con (.key []) [] = .ok (.key []) := rfl
  obtain ⟨ls, more, hls, hne, hfold⟩ := headerLoop_lines hstart h
  have hheader : headerLines block = ls := by
    rw [headerLines, hblock, List.tail_cons, blockLines, Lines.lines, hls]
    rw [List.takeWhile_append_of_pos fun l hl => by simpa using hne l hl,
      List.takeWhile_cons_of_neg (by decide), List.append_nil]
  rw [hheader]
  exact hfold

/-- **The parser takes the lines of the block one behind the other.** -/
theorem parse_accepts (huri : con.request.uri = []) {r : Bool × Con} (h : parse o con = .ok r) :
    ∃ line l con' reqlineHost v, Accepts o con (parseRequest con) r line l con' reqlineHost v := by
  simp only [parse, bind, Except.bind] at h
  cases hloop : requestLineLoop o con ⟨0, [], [], [], []⟩ (parseRequest con) with
  | error e => simp [hloop] at h
  | ok l =>
    simp only [hloop, afterLine] at h
    split at h
    · cases h
    · rename_i hne
      have huri' : l.con.request.uri ≠ [] := by simpa using hne
      obtain ⟨line, w, hblock, hfeed, hend, htoken⟩ := requestLineLoop_ok huri hloop huri'
      simp only [bind, Except.bind] at h
      split at h
      · cases h
      · rename_i vr hheader
        obtain ⟨v, rest'⟩ := vr
        rw [htoken] at hheader
        refine ⟨line, w, l.con, l.reqlineHost, v, by rw [hblock]; rfl, ⟨l.rest, ?_⟩, hfeed, hend, huri', ?_, _, h⟩
        · rw [hloop, ← htoken]
        · exact headerLoop_headerLines hblock hheader

theorem accepted_parse {requestCount : Nat} {block : Bytes}
    (h : (httpRequestParse o (nextRequest con requestCount block)).2.httpStatus = 0) :
    ∃ ready, parse o (nextRequest con requestCount block) =
      .ok (ready, (httpRequestParse o (nextRequest con requestCount block)).2) := by
  unfold httpRequestParse at h ⊢
  cases hx : parse o (nextRequest con requestCount block) with
  | error con' =>
    rw [hx] at h
    exact absurd h (parse_error_status o con requestCount block hx)
  | ok r => exact ⟨r.1, rfl⟩

/-! ## Behind the header -/

/-- The header fields with the host as it has been checked: it is written back. -/
def hostChecked (o : Options) (hs : Headers) (p : Option ValuePtr) : Headers :=
  match p with
  | none => hs
  | some p =>
    let hs := if o.hostStrict then hs.setValue p (requestCheckHostname (hs.deref p)).2 else hs
    if o.hostNormalize then hs.setValue p (httpRequestHostNormalize o.inet (hs.deref p)).2 else hs

theorem checkHost_request (o : Options) (con : Con) :
    Ends (fun _ => True) (fun con' => con'.request =
      { con.request with headers := hostChecked o con.request.headers con.request.httpHost }) (checkHost o con) := by
  unfold checkHost hostChecked
  cases con.request.httpHost with
  | none => rfl
  | some p =>
    refine Ends.ite (fun _ => trivial) fun _ => ?_
    refine Ends.ite (fun _ => trivial) fun _ => ?_
    cases o.hostNormalize <;> cases o.hostStrict <;> rfl

/-- **The post-processing changes nothing but the host.** -/
theorem postProcess_request (o : Options) (v : Vars) :
    Ends (fun _ => True) (fun r => r.2.request =
      { v.con.request with headers := hostChecked o v.con.request.headers v.con.request.httpHost })
      (postProcess o v) := by
  unfold postProcess
  refine (setKeepAlive_request v).bind fun con hcon => ?_
  refine (checkHost_request o con).bind fun con' hcon' => ?_
  apply (checkMethod_same con' v.conLengthSet).bind
  rintro _ rfl
  rw [hcon] at hcon'
  unfold checkLength
  refine Ends.ite (fun _ => ?_) fun _ => hcon'
  exact Ends.ite (fun _ => trivial) fun _ => hcon'

theorem map_key_hostChecked (o : Options) (hs : Headers) (p : Option ValuePtr) :
    (hostChecked o hs p).map DataString.key = hs.map DataString.key := by
  cases p with
  | none => rfl
  | some p =>
    unfold hostChecked
    cases o.hostNormalize <;> cases o.hostStrict <;> simp [Headers.map_key_setValue]

end Request

end Lighttpd
