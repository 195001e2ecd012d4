import Lighttpd.Lib.NamedFields
import Lighttpd.Luna.Pre

/-!
# The record of a request (`fix_query`)

The record that is written for the access log is read back in two directions: the numbers and the token from the left, the
times from the right. What is left has two texts that come from outside, the organisations and the result; there the names
and the quotes of the result show where it begins.

- `Record.text_inj`: a record is determined by its text;
- `lunaPre_record`: the records of requests are of this kind.
-/

namespace Lighttpd.Luna.Handler
open NamedFields

/-! ## Numbers -/

theorem liItostrn_inj {m n : Int} (h : liItostrn m = liItostrn n) : m = n := by
  have hminus : ∀ k l : Nat, chr '-' :: liUtostrn k ≠ liUtostrn l := by
    intro k l heq
    have hdigit := (liUtostrn_spec l).2.1 (chr '-') (by rw [← heq]; exact List.mem_cons_self)
    exact absurd hdigit (by decide)
  unfold liItostrn at h
  split_ifs at h with hm hn hn
  · have := liUtostrn_inj (List.cons.inj h).2
    omega
  · exact absurd h (hminus _ _)
  · exact absurd h.symm (hminus _ _)
  · have := liUtostrn_inj h
    omega

variable {c : Byte} {zeroBehind : Nat → Bool}

theorem notMem_liItostrn (hc : isDecimal c = false) (n : Int) : c ∉ liItostrn n := fun h => by
  have hdec : isDecimal c = true := decimal_isDecimal n c h
  rw [hc] at hdec
  cases hdec

/-! ## Reading a record back -/

/-- The values from the request have no `=`, and the quotes of the result are closed. -/
structure Record.WellFormed (r : Record) : Prop where
  token : chr '=' ∉ r.token
  uuid : chr '=' ∉ r.uuid
  tid : chr '=' ∉ r.tid
  uip : chr '=' ∉ r.uip
  result : Quoted r.result

/-- The end of a record between the organisations and the times. -/
def middle (uuid tid uip result : Bytes) : Bytes :=
  field (chr '^') (chr '=') (ascii "uuid") (uuid ++ field (chr '^') (chr '=') (ascii "tid")
    (tid ++ field (chr '^') (chr '=') (ascii "uip") (uip ++ field (chr '^') (chr '=') (ascii "result") result)))

variable {uuid uuid' tid tid' uip uip' result result' orgIds orgIds' x y : Bytes}

theorem equals_ne_caret : chr '=' ≠ chr '^' := by decide

/-- **No `middle` begins in another one.** -/
theorem middle_cut (huuid : chr '=' ∉ uuid) (htid : chr '=' ∉ tid) (huip : chr '=' ∉ uip) (huuid' : chr '=' ∉ uuid')
    (htid' : chr '=' ∉ tid') (huip' : chr '=' ∉ uip') (hresult : Quoted result) (hresult' : Quoted result')
    (h : middle uuid tid uip result = x ++ middle uuid' tid' uip' result') :
    x = [] ∧ uuid = uuid' ∧ tid = tid' ∧ uip = uip' ∧ result = result' := by
  have hstart : [] ++ middle uuid tid uip result = x ++ middle uuid' tid' uip' result' := h
  obtain ⟨hx, -, h⟩ | ⟨y₁, -, h₁⟩ :=
    field_cut equals_ne_caret List.not_mem_nil (by decide) (by decide) (by decide) (by decide) hstart
  · obtain ⟨hu, h⟩ := next_field equals_ne_caret huuid huuid' (by decide) h
    obtain ⟨ht, h⟩ := next_field equals_ne_caret htid htid' (by decide) h
    obtain ⟨hi, h⟩ := next_field equals_ne_caret huip huip' (by decide) h
    exact ⟨hx, hu, ht, hi, h⟩
  -- the second one begins behind the first name: it begins behind the other names too
  obtain ⟨-, hname, -⟩ | ⟨y₂, -, h₂⟩ :=
    field_cut equals_ne_caret huuid (by decide) (by decide) (by decide) (by decide) h₁
  · exact absurd hname (by decide)
  obtain ⟨-, hname, -⟩ | ⟨y₃, -, h₃⟩ :=
    field_cut equals_ne_caret htid (by decide) (by decide) (by decide) (by decide) h₂
  · exact absurd hname (by decide)
  obtain ⟨-, hname, -⟩ | ⟨y₄, -, h₄⟩ :=
    field_cut equals_ne_caret huip (by decide) (by decide) (by decide) (by decide) h₃
  · exact absurd hname (by decide)
  -- so it is in the result, with another result at its end
  have hseam : ∃ s, result = s ++ chr '^' :: (ascii "result=" ++ result') :=
    ⟨y₄ ++ field (chr '^') (chr '=') (ascii "uuid") (uuid' ++ field (chr '^') (chr '=') (ascii "tid")
      (tid' ++ field (chr '^') (chr '=') (ascii "uip") uip')), by
        rw [h₄, show ascii "result=" = ascii "result" ++ [chr '='] from rfl]
        simp [field]⟩
  obtain ⟨s, hs⟩ := hseam
  rw [hs] at hresult
  have hname : ∀ d ∈ ascii "result=", isBare d = true := List.all_eq_true.mp rfl
  exact absurd hresult (hresult'.no_seam rfl (by decide) fun d hd =>
    ⟨(isBare_iff.mp (hname d hd)).1, (isBare_iff.mp (hname d hd)).2.1⟩)

theorem middle_inj (huuid : chr '=' ∉ uuid) (htid : chr '=' ∉ tid) (huip : chr '=' ∉ uip) (huuid' : chr '=' ∉ uuid')
    (htid' : chr '=' ∉ tid') (huip' : chr '=' ∉ uip') (hresult : Quoted result) (hresult' : Quoted result')
    (h : orgIds ++ middle uuid tid uip result = orgIds' ++ middle uuid' tid' uip' result') :
    orgIds = orgIds' ∧ uuid = uuid' ∧ tid = tid' ∧ uip = uip' ∧ result = result' := by
  rcases List.append_eq_append_iff.mp h with ⟨x, horg, hmiddle⟩ | ⟨x, horg, hmiddle⟩
  · obtain ⟨rfl, hrest⟩ := middle_cut huuid htid huip huuid' htid' huip' hresult hresult' hmiddle
    exact ⟨by rw [horg, List.append_nil], hrest⟩
  · obtain ⟨rfl, rfl, rfl, rfl, rfl⟩ := middle_cut huuid' htid' huip' huuid htid huip hresult' hresult hmiddle
    exact ⟨by rw [horg, List.append_nil], rfl, rfl, rfl, rfl⟩

theorem Record.text_eq (r : Record) : r.text =
    field (chr '^') (chr '=') (ascii "status") (liItostrn r.status ++ field (chr '^') (chr '=') (ascii "dmp")
      (liItostrn r.dmp ++ field (chr '^') (chr '=') (ascii "token") (r.token ++
        field (chr '^') (chr '=') (ascii "tenant_id") (liItostrn r.tenantId ++
          field (chr '^') (chr '=') (ascii "org_ids")
            (((r.orgIds ++ middle r.uuid r.tid r.uip r.result) ++ field (chr '^') (chr '=') (ascii "st") (liItostrn r.st)) ++
              field (chr '^') (chr '=') (ascii "ut") (liItostrn r.ut)))))) := by
  simp [Record.text, Record.fields, fieldText, middle, field]

/-- **A record is determined by its text.** -/
theorem Record.text_inj {r r' : Record} (hr : r.WellFormed) (hr' : r'.WellFormed) (h : r.text = r'.text) : r = r' := by
  have hequals : ∀ n, chr '=' ∉ liItostrn n := notMem_liItostrn (by decide)
  have hcaret : ∀ n, chr '^' ∉ liItostrn n := notMem_liItostrn (by decide)
  rw [Record.text_eq, Record.text_eq] at h
  have hleft := List.append_cancel_left (List.cons.inj h).2
  obtain ⟨hstatus, h⟩ := next_field equals_ne_caret (hequals _) (hequals _) (by decide) (List.cons.inj hleft).2
  obtain ⟨hdmp, h⟩ := next_field equals_ne_caret (hequals _) (hequals _) (by decide) h
  obtain ⟨htoken, h⟩ := next_field equals_ne_caret hr.token hr'.token (by decide) h
  obtain ⟨htenant, h⟩ := next_field equals_ne_caret (hequals _) (hequals _) (by decide) h
  obtain ⟨h, hut⟩ := last_field equals_ne_caret (by decide) (hcaret _) (hcaret _) h
  obtain ⟨h, hst⟩ := last_field equals_ne_caret (by decide) (hcaret _) (hcaret _) h
  obtain ⟨horg, huuid, htid, huip, hresult⟩ :=
    middle_inj hr.uuid hr.tid hr.uip hr'.uuid hr'.tid hr'.uip hr.result hr'.result h
  cases r
  cases r'
  simp only [Record.mk.injEq]
  exact ⟨liItostrn_inj hstatus, liItostrn_inj hdmp, htoken, liItostrn_inj htenant, horg, huuid, htid, huip, hresult,
    liItostrn_inj hst, liItostrn_inj hut⟩

/-! ## The data of a request -/

def names : List Bytes :=
  [ascii "status", ascii "dmp", ascii "token", ascii "tenant_id", ascii "org_ids", ascii "uuid", ascii "tid", ascii "uip",
   ascii "result", ascii "st", ascii "ut"]

def begins (name s : Bytes) : Nat := occurrences (mark (chr '^') (chr '=') name) s

variable {name s t : Bytes} {creq creq' : ClientReq}

theorem begins_eq_zero (h : chr '=' ∉ s) : begins name s = 0 := occurrences_eq_zero h

theorem notMem_mark : ∀ name ∈ names, ∀ c ∈ ascii "[]> \"\\\x7b\x7d:,", c ∉ mark (chr '^') (chr '=') name := by
  have hall : (names.all fun name => (ascii "[]> \"\\\x7b\x7d:,").all fun c =>
      !(mark (chr '^') (chr '=') name).contains c) = true := by
    decide
  simpa only [List.all_eq_true, Bool.not_eq_true', List.contains_eq_mem, decide_eq_false_iff_not] using hall

theorem begins_over (hname : name ∈ names) (hc : c ∈ ascii "[]> \"\\\x7b\x7d:,") (s t : Bytes) :
    begins name (s ++ c :: t) = begins name s + begins name t :=
  occurrences_over (notMem_mark name hname c hc) (List.cons_ne_nil _ _) s t

theorem begins_piece (hname : name ∈ names) {key : Bytes} (hkey : chr '=' ∉ key) (s t : Bytes) :
    begins name (s ++ (ascii "[" ++ key ++ ascii "]=>" ++ t ++ ascii " // ")) = begins name s + begins name t := by
  have hsplit : s ++ (ascii "[" ++ key ++ ascii "]=>" ++ t ++ ascii " // ") =
      s ++ chr '[' :: (key ++ chr ']' :: ([chr '='] ++ chr '>' :: (t ++ chr ' ' :: ascii "// "))) := by
    simp only [List.append_assoc]
    rfl
  have hmark : begins name [chr '='] = 0 := by
    revert name
    decide
  rw [hsplit, begins_over hname (by decide), begins_over hname (by decide), begins_over hname (by decide),
    begins_over hname (by decide), begins_eq_zero hkey, hmark, @begins_eq_zero _ (ascii "// ") (by decide)]
  omega

/-- The values from the request have no `=`, and a field begins in the debug text only where one does in the
organisations. -/
structure Clean (creq : ClientReq) : Prop where
  token : chr '=' ∉ creq.token
  uuid : chr '=' ∉ creq.uuid
  tidStr : chr '=' ∉ creq.tidStr
  uip : chr '=' ∉ creq.uip.getD []
  log : ∀ name ∈ names, begins name creq.logDebug = 0 ∨ begins name creq.logDebug = begins name creq.orgIds

/-- A value without `=` in the debug text. -/
theorem Clean.debugAppend (h : Clean creq) {key text : Bytes} (hkey : chr '=' ∉ key) (htext : chr '=' ∉ text) :
    Clean (creq.debugAppend key text) := by
  unfold ClientReq.debugAppend
  split_ifs
  · refine ⟨h.token, h.uuid, h.tidStr, h.uip, fun name hname => ?_⟩
    rw [begins_piece hname hkey, begins_eq_zero htext, Nat.add_zero]
    exact h.log name hname
  · exact h

theorem equals_notMem_getQueryValue (query key : Bytes) : chr '=' ∉ getQueryValue query key := by
  unfold getQueryValue
  split
  · exact List.not_mem_nil
  · rename_i pch _
    split
    · rename_i value _ htokens
      intro h
      have hvalue : value ∈ strtok (chr '=') pch := by
        rw [htokens]
        simp
      exact (PathName.mem_splitOn (List.mem_filter.mp hvalue).1).1 (List.mem_of_mem_take h)
    · exact List.not_mem_nil

theorem equals_notMem_decimal (n : Int) : chr '=' ∉ decimal n := notMem_liItostrn (by decide) n

/-- `verify_token`, with a debug text that is still empty. -/
theorem Clean.verifyToken (h : Clean creq) (hlog : creq.logDebug = []) {i : Info}
    (hverify : verifyToken creq i = some creq') : Clean creq' := by
  unfold Luna.verifyToken at hverify
  obtain ⟨-, hverify⟩ := Option.ite_none_right_eq_some.mp hverify
  rw [← Option.some.inj hverify]
  unfold ClientReq.debugAppend
  by_cases hdebug : creq.ifDebug = true
  · simp only [hdebug, if_true]
    refine ⟨h.token, h.uuid, h.tidStr, h.uip, fun name hname => .inr ?_⟩
    dsimp only
    rw [begins_piece hname (by decide), begins_piece hname (by decide), begins_piece hname (by decide), hlog,
      begins_eq_zero h.token, begins_eq_zero (equals_notMem_decimal _), begins_eq_zero List.not_mem_nil]
    omega
  · simp only [hdebug]
    refine ⟨h.token, h.uuid, h.tidStr, h.uip, fun name _ => .inl ?_⟩
    rw [if_neg Bool.false_ne_true, if_neg Bool.false_ne_true]
    exact begins_eq_zero (by rw [hlog]; exact List.not_mem_nil)

/-- The end of `verify_query`. -/
theorem Clean.readIp (h : Clean creq) (query : Bytes) : Clean (creq.readIp query) := by
  have huuid : Clean (creq.debugAppend (ascii "uuid") creq.uuid) := h.debugAppend (by decide) h.uuid
  have htid := huuid.debugAppend (by decide : chr '=' ∉ ascii "tid") huuid.tidStr
  have hip := equals_notMem_getQueryValue query (ascii "ip")
  unfold ClientReq.readIp
  dsimp only
  generalize (creq.debugAppend (ascii "uuid") creq.uuid).debugAppend (ascii "tid")
    (creq.debugAppend (ascii "uuid") creq.uuid).tidStr = c at htid ⊢
  obtain ⟨uip, huip, hnoeq⟩ : ∃ uip, (if getQueryValue query (ascii "ip") = [] then c.uip
      else some (getQueryValue query (ascii "ip"))) = uip ∧ chr '=' ∉ uip.getD [] := by
    refine ⟨_, rfl, ?_⟩
    split_ifs
    · exact htid.uip
    · exact hip
  rw [huip]
  have hclean : Clean { c with uip := uip } := ⟨htid.token, htid.uuid, htid.tidStr, hnoeq, htid.log⟩
  refine hclean.debugAppend (by decide) ?_
  cases uip with
  | none => exact (by decide : chr '=' ∉ ascii "(null)")
  | some ip => exact hnoeq

/-- `verify_query`, where the request is within its limits. -/
theorem Clean.verifyTids (h : Clean creq) {query : Bytes}
    (hverify : verifyTids zeroBehind query creq = some creq') : Clean creq' := by
  have huuid := equals_notMem_getQueryValue query (ascii "uuid")
  have htid := equals_notMem_getQueryValue query (ascii "tid")
  unfold Luna.verifyTids at hverify
  dsimp only at hverify
  split_ifs at hverify
  · cases hverify
    exact ⟨h.token, h.uuid, h.tidStr, h.uip, h.log⟩
  · cases hverify
    exact ⟨h.token, huuid, h.tidStr, h.uip, h.log⟩
  · obtain ⟨arr, -, hcreq⟩ := Option.map_eq_some_iff.mp hverify
    rw [← hcreq]
    have hclean : Clean { creq with
        uuid := getQueryValue query (ascii "uuid"), tidStr := getQueryValue query (ascii "tid"), tidArray := arr } :=
      ⟨h.token, huuid, htid, h.uip, h.log⟩
    exact hclean.readIp query

/-- **`verify_query` leaves clean data.** -/
theorem verifyQuery_clean {m m' : Table} {query : Bytes} {rt : ReqType}
    (hverify : verifyQuery zeroBehind m query rt creqInit = some (creq, m')) : Clean creq := by
  rw [verifyQuery_init] at hverify
  have htoken : Clean (withToken query) :=
    ⟨equals_notMem_getQueryValue query (ascii "token"), List.not_mem_nil, List.not_mem_nil, List.not_mem_nil,
      fun _ _ => .inl rfl⟩
  split at hverify
  · cases hverify
    exact ⟨List.not_mem_nil, List.not_mem_nil, List.not_mem_nil, List.not_mem_nil, fun _ _ => .inl rfl⟩
  · split at hverify
    · cases hverify
      exact ⟨htoken.token, htoken.uuid, htoken.tidStr, htoken.uip, htoken.log⟩
    · obtain ⟨creq₁, hcreq₁, hrest⟩ := Option.bind_eq_some_iff.mp hverify
      have hclean := htoken.verifyToken rfl hcreq₁
      cases rt with
      | metaSync =>
        cases hrest
        exact hclean
      | tagQuery =>
        dsimp only at hrest
        split_ifs at hrest
        · obtain ⟨creq₂, hcreq₂, hpair⟩ := Option.map_eq_some_iff.mp hrest
          cases hpair
          exact hclean.verifyTids hcreq₂
        · cases hrest
          exact ⟨hclean.token, hclean.uuid, hclean.tidStr, hclean.uip, hclean.log⟩

theorem equals_notMem_redisCluGet {get : Bytes → Option Bytes} {uuid value : Bytes} {tenantId : Int}
    (h : redisCluGet get uuid tenantId = some value) : chr '=' ∉ value := by
  obtain ⟨-, hvalue⟩ := Option.ite_none_right_eq_some.mp h
  rw [← Option.some.inj hvalue]
  intro hmem
  unfold redisValue at hmem
  cases hget : get (redisKey uuid tenantId) with
  | none => simp [hget] at hmem
  | some stored =>
    rw [hget] at hmem
    obtain heq | ⟨t, ht, hc⟩ := mem_intercalate hmem
    · exact absurd heq (by decide)
    · obtain ⟨n, rfl, -⟩ := @mem_tagsOf (some stored) t ht
      exact equals_notMem_decimal n hc

/-- **`read_tag` leaves clean data.** -/
theorem Clean.readTag (h : Clean creq) {get : Bytes → Option Bytes}
    (hread : readTag zeroBehind get creq = some creq') : Clean creq' := by
  unfold Luna.readTag at hread
  simp only [Option.bind_eq_bind, Option.bind_eq_some_iff] at hread
  obtain ⟨value, hvalue, redisTids, -, arr, -, hcreq⟩ := hread
  cases hcreq
  have hclean : Clean { creq with dmp := value ≠ [], tidArray := arr } := ⟨h.token, h.uuid, h.tidStr, h.uip, h.log⟩
  exact hclean.debugAppend (by decide) (equals_notMem_redisCluGet hvalue)

/-! ## The result -/

theorem mark_isPlain : ∀ name ∈ names, ∀ c ∈ mark (chr '^') (chr '=') name, isPlain c = true := by
  have hall : (names.all fun name => (mark (chr '^') (chr '=') name).all isPlain) = true := by decide
  simpa only [List.all_eq_true] using hall

theorem escapeByte_plain (hc : isPlain c = true) : escapeByte c = [c] := by
  simp only [isPlain, Bool.and_eq_true, decide_eq_true_eq, bne_iff_ne, ne_eq] at hc
  exact if_pos ⟨hc.1.1, hc.1.2, hc.2⟩

/-- What is written for another character begins with a backslash, and has no `^`. -/
theorem escapeByte_special (hc : isPlain c = false) :
    ∃ u, escapeByte c = chr '\\' :: u ∧ chr '^' ∉ chr '\\' :: u := by
  have hall := @forall_byte
    (fun c => isPlain c || ((escapeByte c).head? == some (chr '\\') && !(escapeByte c).contains (chr '^')))
    (by decide +kernel) c
  rw [hc, Bool.false_or, Bool.and_eq_true, beq_iff_eq] at hall
  obtain ⟨u, hu⟩ := List.head?_eq_some_iff.mp hall.1
  exact ⟨u, hu, by rw [← hu]; simpa using hall.2⟩

/-- A text without special characters stands in front of an escaped string where it stands in front of the string. -/
theorem prefix_escape {pat : Bytes} (hpat : ∀ c ∈ pat, isPlain c = true) (s : Bytes) : pat <+: escape s ↔ pat <+: s := by
  induction pat generalizing s with
  | nil => simp
  | cons p pat ih =>
    rw [List.forall_mem_cons] at hpat
    cases s with
    | nil => rfl
    | cons c s =>
      rw [show escape (c :: s) = escapeByte c ++ escape s from rfl]
      cases hc : isPlain c with
      | true =>
        rw [escapeByte_plain hc, List.singleton_append, List.cons_prefix_cons, List.cons_prefix_cons, ih hpat.2]
      | false =>
        obtain ⟨u, hu, -⟩ := escapeByte_special hc
        rw [hu, List.cons_append, List.cons_prefix_cons, List.cons_prefix_cons]
        refine iff_of_false (fun h => ?_) (fun h => ?_)
        · rw [h.1] at hpat
          exact absurd hpat.1 (by decide)
        · rw [h.1, hc] at hpat
          exact absurd hpat.1 Bool.false_ne_true

theorem begins_escape (hname : name ∈ names) (s : Bytes) : begins name (escape s) = begins name s := by
  induction s with
  | nil => rfl
  | cons c s ih =>
    have hprefix := prefix_escape (mark_isPlain name hname) (c :: s)
    have hescape : escape (c :: s) = escapeByte c ++ escape s := rfl
    have hiff : (mark (chr '^') (chr '=') name).isPrefixOf (escapeByte c ++ escape s) =
        (mark (chr '^') (chr '=') name).isPrefixOf (c :: s) := by
      rw [Bool.eq_iff_iff, List.isPrefixOf_iff_prefix, List.isPrefixOf_iff_prefix, ← hescape, hprefix]
    rw [hescape, show begins name (c :: s) =
      (if (mark (chr '^') (chr '=') name).isPrefixOf (c :: s) then 1 else 0) + begins name s from rfl, ← hiff, ← ih]
    cases hc : isPlain c with
    | true =>
      rw [escapeByte_plain hc]
      rfl
    | false =>
      obtain ⟨u, hu, hcaret⟩ := escapeByte_special hc
      have hno : ¬ (mark (chr '^') (chr '=') name).isPrefixOf (escapeByte c ++ escape s) = true := by
        rw [hu, List.isPrefixOf_iff_prefix, mark, List.cons_append, List.cons_prefix_cons]
        exact fun h => absurd h.1 (by decide)
      rw [if_neg hno, Nat.zero_add, hu]
      exact occurrences_skip hcaret _

def memberBegins (name : Bytes) (m : Bytes × Value) : Nat :=
  begins name m.1 + match m.2 with
    | .num _ => 0
    | .str s => begins name s

theorem begins_printString (hname : name ∈ names) (s : Bytes) : begins name (printString s) = begins name s := by
  rw [printString, ← List.nil_append (chr '\"' :: _), begins_over hname (by decide), begins_over hname (by decide),
    begins_escape hname]
  exact (Nat.zero_add _).trans (Nat.add_zero _)

theorem begins_printMember (hname : name ∈ names) (m : Bytes × Value) :
    begins name (printMember m) = memberBegins name m := by
  rw [printMember, begins_over hname (by decide), begins_printString hname, memberBegins]
  cases m.2 with
  | num n => rw [show printValue (.num n) = decimal n from rfl, begins_eq_zero (equals_notMem_decimal n)]
  | str s => rw [show printValue (.str s) = printString s from rfl, begins_printString hname]

/-- **The fields that begin in an object** begin in the names and the strings of its members. -/
theorem begins_printObject (hname : name ∈ names) (ms : List (Bytes × Value)) :
    begins name (printObject ms) = (ms.map (memberBegins name)).sum := by
  have hmembers : begins name (printMembers ms) = (ms.map (memberBegins name)).sum := by
    induction ms with
    | nil => rfl
    | cons m ms ih =>
      rw [List.map_cons, List.sum_cons, ← ih, ← begins_printMember hname]
      cases ms with
      | nil => rfl
      | cons m' ms => exact begins_over hname (by decide) _ _
  rw [printObject, ← List.nil_append (chr '\x7b' :: _), begins_over hname (by decide), begins_over hname (by decide), hmembers]
  exact (Nat.zero_add _).trans (Nat.add_zero _)

/-- The object has members for the tags, with numbers, and one for the debug text. -/
theorem lunaTagsQuery_members {i : Info} {ms : List (Bytes × Value)} (h : lunaTagsQuery i creq = some ms) :
    ∃ tags, (tags = [] ∨ tagMembers i creq.tidArray = some tags) ∧
      ms = tags ++ if creq.ifDebug then [(ascii "debug", .str creq.logDebug)] else [] := by
  unfold lunaTagsQuery at h
  dsimp only at h
  by_cases hdmp : creq.dmp = true
  · rw [if_pos hdmp] at h
    obtain ⟨tags, htags, hms⟩ := Option.bind_eq_some_iff.mp h
    exact ⟨tags, .inr htags, (Option.some.inj hms).symm⟩
  · rw [if_neg hdmp] at h
    exact ⟨[], .inl rfl, (Option.some.inj h).symm⟩

theorem lunaTagsQuery_str {i : Info} {ms : List (Bytes × Value)} (h : lunaTagsQuery i creq = some ms) {key text : Bytes}
    (hmem : (key, .str text) ∈ ms) : text = creq.logDebug := by
  obtain ⟨tags, htags, hms⟩ := lunaTagsQuery_members h
  have hnum : (key, .str text) ∉ tags := by
    intro htag
    obtain rfl | htags := htags
    · cases htag
    · obtain ⟨dus, -, hdus⟩ := Option.map_eq_some_iff.mp htags
      rw [← hdus] at htag
      obtain ⟨du, -, hdu⟩ := List.mem_filterMap.mp htag
      obtain ⟨-, hpair⟩ := Option.ite_none_right_eq_some.mp hdu
      cases hpair
  rw [hms] at hmem
  rcases List.mem_append.mp hmem with hmem | hmem
  · exact absurd hmem hnum
  · split_ifs at hmem
    · cases List.mem_singleton.mp hmem
      rfl
    · cases hmem

/-- **The object of a request for tags**: a field begins in it only where one does in the organisations. -/
theorem begins_tags (hname : name ∈ names) {o : Outside} {m m' : Table} {query : Bytes} {ms : List (Bytes × Value)}
    (hverify : verifyQuery o.zeroBehind m query .tagQuery creqInit = some (creq, m')) (hstatus : creq.respStatus = 200)
    (htags : tagsObject o m' creq = some (creq', ms)) :
    begins name (printObject ms) = 0 ∨ begins name (printObject ms) = begins name creq'.orgIds := by
  have hclean := verifyQuery_clean hverify
  rw [verifyQuery_tagQuery] at hverify
  unfold tagsObject at htags
  simp only [Option.bind_eq_bind, Option.bind_eq_some_iff] at htags
  obtain ⟨creq₁, hread, i', hi', ms', hms, hpair⟩ := htags
  cases hpair
  have hclean' := hclean.readTag hread
  -- the request has been accepted
  obtain hrefused | ⟨i, htoken, hlookup, horg⟩ | ⟨i, horg, haccepted⟩ := refused_or_accepted m query
  · obtain ⟨creq₂, m₂, hverify₂, hstatus₂⟩ := verifyQuery_refused o.zeroBehind hrefused
    rw [hverify] at hverify₂
    cases hverify₂
    exact absurd hstatus hstatus₂
  · have hnone : Luna.verifyToken (withToken query) i = none := if_neg (by omega)
    rw [verifyQuery_eq, if_neg htoken, hlookup] at hverify
    simp [hnone] at hverify
  obtain ⟨hnone, hsome⟩ := @verifyQuery_accepted o.zeroBehind _ _ _ haccepted horg
  cases hz : o.zeroBehind (param query "tid").length with
  | false =>
    rw [hnone hz] at hverify
    cases hverify
  | true =>
    obtain ⟨creq₂, m₂, dm, hverify₂, hverified⟩ := hsome hz
    rw [hverify] at hverify₂
    cases hverify₂
    obtain ⟨i₂, hi₂, hauth⟩ := hverified.info
    obtain ⟨dus, log, hrequested, hanswer⟩ := hverified.answer o.zeroBehind
    obtain ⟨hnofit, hfit⟩ := hanswer o.get
    by_cases hfits : Fits o.zeroBehind (o.get (redisKey (param query "uuid") i.tenantId))
    · obtain ⟨creq₃, hread₃, htoken₃, hobject⟩ := hfit hfits
      rw [hread] at hread₃
      cases hread₃
      rw [htoken₃, hi₂] at hi'
      cases hi'
      have hlist := hobject _ hauth
      rw [hms] at hlist
      have hmsEq := Option.some.inj hlist
      -- the keys are tags of the request
      have hkeys : ((answerTags i dus (o.get (redisKey (param query "uuid") i.tenantId))).map (memberBegins name)).sum = 0 := by
        refine List.sum_eq_zero fun n hn => ?_
        obtain ⟨member, hmember, rfl⟩ := List.mem_map.mp hn
        unfold answerTags at hmember
        split_ifs at hmember
        · cases hmember
        · obtain ⟨du, hdu, hmember⟩ := List.mem_filterMap.mp hmember
          obtain ⟨k, hk, rfl⟩ := hrequested.entry du hdu
          obtain ⟨-, hmember⟩ := Option.ite_none_right_eq_some.mp hmember
          have hkey : chr '=' ∉ k := fun h =>
            equals_notMem_getQueryValue query (ascii "tid") (mem_of_mem_strtok hk h)
          rw [← Option.some.inj hmember]
          exact begins_eq_zero hkey
      rw [begins_printObject hname, hmsEq, List.map_append, List.sum_append, hkeys, Nat.zero_add]
      unfold answerDebug at hmsEq ⊢
      split_ifs at hmsEq ⊢
      · have htext := lunaTagsQuery_str hms (by rw [hmsEq]; exact List.mem_append_right _ (List.mem_singleton_self _))
        rw [htext, List.map_singleton, List.sum_singleton, memberBegins,
          @begins_eq_zero _ (ascii "debug") (by decide), Nat.zero_add]
        exact hclean'.log name hname
      · exact .inl rfl
    · rw [hnofit hfits] at hread
      cases hread

/-! ## The records of requests -/

/-- The record that has been written for the request. The object of an error is made behind it. -/
def Pre.logged (s : Pre) : Record := { s.record with result := if s.creq.respStatus = 200 then s.response else [] }

variable {o : Outside} {s₀ s₁ : Pre} {visited : List ShkStatus}

/-- **What the record is made from**, on every way through the states. -/
theorem way_clean (hway : Way o s₀ visited s₁) (hcreq : s₀.creq = creqInit) (hresponse : s₀.response = []) :
    Clean s₁.creq ∧ Quoted s₁.response ∧ (s₁.creq.respStatus ≠ 200 → s₁.response = []) ∧
    (s₀.rt = .tagQuery → ∀ name ∈ names,
      begins name s₁.response = 0 ∨ begins name s₁.response = begins name s₁.creq.orgIds) ∧
    (s₀.rt = .metaSync → s₁.response = [] ∨ ∃ items, metaGet s₁.statics s₁.creq.token = some (some items) ∧
      s₁.response = printJson (.array (items.map o.view))) := by
  have hempty : Quoted [] := quoted_bare nofun
  cases hway with
  | method hmethod =>
    dsimp only
    rw [hresponse, hcreq]
    exact ⟨⟨List.not_mem_nil, List.not_mem_nil, List.not_mem_nil, List.not_mem_nil, fun _ _ => .inl rfl⟩, hempty,
      fun _ => rfl, fun _ _ _ => .inl rfl, fun _ => .inl rfl⟩
  | refused hmethod hverify hstatus =>
    rw [hcreq] at hverify
    dsimp only [Pre.verified]
    rw [hresponse]
    exact ⟨verifyQuery_clean hverify, hempty, fun _ => rfl, fun _ _ _ => .inl rfl, fun _ => .inl rfl⟩
  | metaSync hmethod hrt hverify hstatus htext =>
    rw [hcreq] at hverify
    dsimp only [Pre.verified] at htext ⊢
    rw [hresponse, List.nil_append]
    unfold lunaMetaSync at htext
    split at htext
    · cases htext
    · cases htext
    · rename_i items hitems
      obtain ⟨-, htext⟩ := Option.ite_none_right_eq_some.mp htext
      rw [← Option.some.inj htext]
      exact ⟨verifyQuery_clean hverify, quoted_printJson _, fun h => absurd hstatus h,
        fun h => absurd (hrt.symm.trans h) (by decide), fun _ => .inr ⟨items, hitems, rfl⟩⟩
  | tagQuery hmethod hrt hverify hstatus htags =>
    rw [hcreq] at hverify
    dsimp only [Pre.verified]
    rw [hresponse, List.nil_append]
    have hclean : Clean _ := verifyQuery_clean hverify
    refine ⟨?_, quoted_printObject _, fun h => absurd ((tagsObject_status htags).trans hstatus) h,
      fun _ name hname => begins_tags hname hverify hstatus htags, fun h => absurd (hrt.symm.trans h) (by decide)⟩
    unfold tagsObject at htags
    simp only [Option.bind_eq_bind, Option.bind_eq_some_iff] at htags
    obtain ⟨creq₁, hread, i, -, ms, -, hpair⟩ := htags
    cases hpair
    exact hclean.readTag hread

theorem answer_logged (h : s₁.creq.respStatus ≠ 200 → s₁.response = []) :
    (s₁.answer o).con.uriQuery = (s₁.answer o).logged.text ∧ (s₁.answer o).logged.result = s₁.response := by
  have hresult : (s₁.answer o).logged.result = s₁.response := by
    show (if s₁.creq.respStatus = 200 then (if s₁.creq.respStatus ≠ 200 then _ else s₁.response) else []) = s₁.response
    by_cases hstatus : s₁.creq.respStatus = 200
    · rw [if_pos hstatus, if_neg (not_not.mpr hstatus)]
    · rw [if_neg hstatus, h hstatus]
  refine ⟨?_, hresult⟩
  have hrecord : (s₁.answer o).logged = { (s₁.answer o).logged with result := s₁.response } := by
    rw [← hresult]
  rw [hrecord]
  rfl

/-- **The record of a request.** -/
theorem lunaPre_record {statics : Statics} {con : Con} {rt : ReqType} {s : Pre}
    (h : lunaPre o statics con handlerCtxInit rt = some (visited, s)) :
    s.con.uriQuery = s.logged.text ∧ s.logged.WellFormed ∧
    (rt = .tagQuery → ∀ name ∈ names,
      begins name s.logged.result = 0 ∨ begins name s.logged.result = begins name s.logged.orgIds) ∧
    (rt = .metaSync → s.logged.result = [] ∨ ∃ items, metaGet s.statics s.logged.token = some (some items) ∧
      s.logged.result = printJson (.array (items.map o.view))) := by
  rw [handlerCtxInit, lunaPre_eq] at h
  obtain ⟨s₁, hway, rfl⟩ := outcome_way h
  obtain ⟨hclean, hquoted, herror, htags, hmeta⟩ := way_clean hway rfl rfl
  obtain ⟨htext, hresult⟩ := answer_logged herror
  rw [hresult]
  exact ⟨htext, ⟨hclean.token, hclean.uuid, hclean.tidStr, hclean.uip, by rw [hresult]; exact hquoted⟩, htags, hmeta⟩

theorem names_spec : ∀ name ∈ names,
    chr '^' ∉ name ∧ chr '=' ∉ name ∧ (names.map fun m => if m = name then 1 else 0).sum = 1 := by decide

theorem Record.begins_text {r : Record} (hr : r.WellFormed) (hname : name ∈ names) :
    begins name r.text = 1 + begins name r.orgIds + begins name r.result := by
  obtain ⟨hcaret, hequals, hone⟩ := names_spec name hname
  have hfields : r.fields.map Prod.fst = names := rfl
  have hnames : ∀ f ∈ r.fields, chr '^' ∉ f.1 ∧ chr '=' ∉ f.1 := fun f hf => by
    have hf' : f.1 ∈ names := hfields ▸ List.mem_map_of_mem hf
    exact ⟨(names_spec f.1 hf').1, (names_spec f.1 hf').2.1⟩
  have hnumber : ∀ n, begins name (liItostrn n) = 0 := fun n => begins_eq_zero (equals_notMem_decimal n)
  have hsum : begins name r.text = (r.fields.map fun f => (if f.1 = name then 1 else 0) + begins name f.2).sum :=
    occurrences_fields equals_ne_caret hcaret hequals hnames
  have hown : (r.fields.map fun f => if f.1 = name then 1 else 0).sum = 1 := by
    rw [← hfields, List.map_map] at hone
    exact hone
  have hvalues : (r.fields.map fun f => begins name f.2).sum = begins name r.orgIds + begins name r.result := by
    simp only [Record.fields, List.map_cons, List.map_nil, List.sum_cons, List.sum_nil, hnumber, begins_eq_zero hr.token,
      begins_eq_zero hr.uuid, begins_eq_zero hr.tid, begins_eq_zero hr.uip]
    omega
  rw [hsum, List.sum_map_add, hown, hvalues, Nat.add_assoc]

/-- **The records of requests are unambiguous**: every record is read back from its text; and besides its own fields, others
begin in it only where the organisations or the result have them, and in the result of a request for tags only where the
organisations have them. -/
theorem records_unambiguous :
    (∃ parse : Bytes → Option Record, ∀ o statics con rt visited s,
      lunaPre o statics con handlerCtxInit rt = some (visited, s) → parse s.con.uriQuery = some s.logged) ∧
    ∀ o statics con rt visited s, lunaPre o statics con handlerCtxInit rt = some (visited, s) → ∀ name ∈ names,
      begins name s.con.uriQuery = 1 + begins name s.logged.orgIds + begins name s.logged.result ∧
      (rt = .tagQuery →
        begins name s.logged.result = 0 ∨ begins name s.logged.result = begins name s.logged.orgIds) ∧
      (rt = .metaSync → s.logged.result = [] ∨ ∃ items, metaGet s.statics s.logged.token = some (some items) ∧
        s.logged.result = printJson (.array (items.map o.view))) := by
  classical
  refine ⟨⟨fun text => if h : ∃ r : Record, r.WellFormed ∧ r.text = text then some h.choose else none, ?_⟩, ?_⟩
  · intro o statics con rt visited s h
    obtain ⟨htext, hrecord, -, -⟩ := lunaPre_record h
    have hex : ∃ r : Record, r.WellFormed ∧ r.text = s.con.uriQuery := ⟨s.logged, hrecord, htext.symm⟩
    dsimp only
    rw [dif_pos hex]
    congr 1
    exact Record.text_inj hex.choose_spec.1 hrecord (hex.choose_spec.2.trans htext)
  · intro o statics con rt visited s h name hname
    obtain ⟨htext, hrecord, htags, hmeta⟩ := lunaPre_record h
    rw [htext, Record.begins_text hrecord hname]
    exact ⟨rfl, fun hrt => htags hrt name hname, hmeta⟩

/-- Redis has nothing, and the clocks stand at 7 and 10, and at 13 when the record is written. -/
def sampleOutside : Outside := ⟨fun _ => true, fun _ => none, fun _ => .null, 7, 10, 13⟩

/-- A request with a token that looks like the beginning of a field. -/
def caretCon : Con := ⟨some .get, ascii "token=^uuid&uuid=u&tid=1", 0, [], false⟩

theorem records_unambiguous_caret :
    (∃ parse : Bytes → Option Record,
      parse (ascii "^status=401^dmp=0^token=^uuid^tenant_id=0^org_ids=^uuid=^tid=^uip=^result=^st=7^ut=3") =
        some ⟨401, 0, ascii "^uuid", 0, [], [], [], [], [], 7, 3⟩) ∧
    begins (ascii "uuid")
      (ascii "^status=401^dmp=0^token=^uuid^tenant_id=0^org_ids=^uuid=^tid=^uip=^result=^st=7^ut=3") = 1 := by
  have hrun : ∃ s, lunaPre sampleOutside ⟨∅, none⟩ caretCon handlerCtxInit .tagQuery =
        some ([.pre, .queryVerify, .response], s) ∧
      s.logged = ⟨401, 0, ascii "^uuid", 0, [], [], [], [], [], 7, 3⟩ :=
    ⟨_, rfl, by decide⟩
  obtain ⟨s, hpre, hlogged⟩ := hrun
  have htext : s.con.uriQuery =
      ascii "^status=401^dmp=0^token=^uuid^tenant_id=0^org_ids=^uuid=^tid=^uip=^result=^st=7^ut=3" := by
    rw [(lunaPre_record hpre).1, hlogged]
    unfold Record.text Record.fields
    repeat rw [ascii_ofList]
    decide
  obtain ⟨parse, hparse⟩ := records_unambiguous.1
  have hbegins := (records_unambiguous.2 _ _ _ _ _ _ hpre (ascii "uuid") (by decide)).1
  rw [htext, hlogged] at hbegins
  refine ⟨⟨parse, ?_⟩, hbegins⟩
  rw [← htext, ← hlogged]
  exact hparse _ _ _ _ _ _ hpre

end Lighttpd.Luna.Handler
