import Lighttpd.Backend.Env
import Lighttpd.Backend.Sender
import Lighttpd.Lib.FcgiRecord

/-!
# The request of a FastCGI backend (`mod_fastcgi.c`)

`fcgi_create_env` queues the records that begin a request, and `fcgi_stdin_append` those of the body. `create_spec` and
`stdinAppend_spec` say which records these are.
-/

namespace Lighttpd
namespace Fcgi

open Backend Backend.Sender Chunkqueue FcgiRecord

def maxLength : Nat := 0xffff

/-- `FCGI_BEGIN_REQUEST`, `FCGI_PARAMS` and `FCGI_STDIN`. -/
def beginRequest : Byte := 1
def params : Byte := 4
def stdin : Byte := 5

/-- The length of a name or a value, as `fcgi_env_add` writes it. -/
def lenEnc (len : Nat) : Bytes :=
  if len > 127 then
    [((len >>> 24) &&& 0xff).toUInt8 ||| 0x80, (len >>> 16).toUInt8, (len >>> 8).toUInt8, (len >>> 0).toUInt8]
  else [(len >>> 0).toUInt8]

def lenEncLen (len : Nat) : Nat := if len > 127 then 4 else 1

/-- **`fcgi_env_add`**: `none` is its `-1`. -/
def fcgiEnvAdd (env : Bytes) (p : EnvPair) : Option Bytes := do
  let val ← p.2
  let len := p.1.length + val.length + lenEncLen p.1.length + lenEncLen val.length
  if env.length + len ≥ maxLength then none
  else some (env ++ (lenEnc p.1.length ++ lenEnc val.length) ++ p.1 ++ val)

/-- The calls of `fcgi_env_add` with `FCGI_ENV_ADD_CHECK`: the first one that fails is the last one. -/
def fcgiEnvAddAll (env : Bytes) : List EnvPair → Option Bytes
  | [] => some env
  | p :: ps => (fcgiEnvAdd env p).bind fun env => fcgiEnvAddAll env ps

def fcgiHeader (type : Byte) (requestId contentLength : Nat) (paddingLength : Byte) : Option Bytes :=
  if contentLength ≤ maxLength then
    some [1, type, ((requestId >>> 8) &&& 0xff).toUInt8, (requestId &&& 0xff).toUInt8,
      ((contentLength >>> 8) &&& 0xff).toUInt8, (contentLength &&& 0xff).toUInt8, paddingLength, 0]
  else none

/-- A header is queued for the backend, and counted in `wb_reqlen`. -/
def appendHeader (s : Sender) (contentLength : Nat) : Option Sender := do
  let header ← fcgiHeader stdin s.requestId contentLength 0
  let wb ← s.wb.appendMem header
  return { s with wb := wb, wbReqlen := s.wbReqlen + 8 }

/-- The loop of `fcgi_stdin_append`, with `rest` bytes to go. -/
def stdinPieces : Nat → Nat → Sender → Option Sender
  | _, 0, s => some s
  | 0, _ + 1, _ => none
  | fuel + 1, rest@(_ + 1), s => do
    let weWant := if rest > maxLength then maxLength else rest
    let s ← appendHeader s weWant
    let (wb, cq) ← s.wb.steal s.con.contentQueue weWant
    stdinPieces fuel (rest - weWant) { s with wb := wb, con := { s.con with contentQueue := cq } }

/-- **`fcgi_stdin_append`**. -/
def fcgiStdinAppend (s : Sender) : Option Sender := do
  let reqCqlen := (s.con.contentQueue.bytesIn - s.con.contentQueue.bytesOut).toNat
  let s ← stdinPieces reqCqlen reqCqlen s
  if s.wb.bytesIn = s.wbReqlen then appendHeader s 0 else some s

/-- **`fcgi_create_env`**; the result is whether it returns `0`. -/
def fcgiCreateEnv (req : EnvCon) (host : EnvHost) (s : Sender) : Option (Bool × Sender) := do
  let begin ← fcgiHeader beginRequest s.requestId 8 0
  match fcgiEnvAddAll [] (req.fcgiEnv host s.con.contentLength) with
  | none => return (false, { s with con := { s.con with httpStatus := 400 } })
  | some env =>
    let b := Buffer.init.copyStringLen (begin ++ [0, host.mode, 0, 0, 0, 0, 0, 0])
    let header ← fcgiHeader params s.requestId env.length 0
    let b := (b.appendStringLen header).appendStringLen env
    let header ← fcgiHeader params s.requestId 0 0
    let b := b.appendStringLen header
    let (wb, _) ← s.wb.appendBuffer b
    let s ← fcgiStdinAppend { s with wb := wb, wbReqlen := b.stringLength + s.con.contentLength }
    return (true, s)

/-! ## The pairs -/

theorem lenEnc_eq (len : Nat) : lenEnc len = encodeLength len := by
  have hmod : ((len >>> 24) &&& 0xff).toUInt8 = (len / 16777216).toUInt8 := by
    rw [Nat.shiftRight_eq_div_pow, show (0xff : Nat) = 2 ^ 8 - 1 from rfl, Nat.and_two_pow_sub_one_eq_mod]
    apply UInt8.toNat_inj.mp
    simp only [Nat.toUInt8_eq, UInt8.toNat_ofNat']
    omega
  unfold lenEnc encodeLength
  rw [hmod, Nat.shiftRight_eq_div_pow, Nat.shiftRight_eq_div_pow]
  rfl

theorem encodeLength_length (n : Nat) : (encodeLength n).length = lenEncLen n := by
  unfold encodeLength lenEncLen
  split
  · rfl
  · rfl

/-- **A pair that is accepted is the next pair of the stream.** -/
theorem fcgiEnvAdd_eq_some {env env' : Bytes} {p : EnvPair} (h : fcgiEnvAdd env p = some env') :
    ∃ val, p.2 = some val ∧ env' = env ++ encodePair (p.1, val) ∧ env'.length < maxLength := by
  obtain ⟨val, hval, h⟩ := Option.bind_eq_some_iff.mp h
  dsimp only at h
  split at h
  · cases h
  · rename_i hlen
    cases h
    refine ⟨val, hval, ?_, ?_⟩
    · unfold encodePair
      simp only [lenEnc_eq, List.append_assoc]
    · simp only [lenEnc_eq, List.length_append, encodeLength_length]
      omega

/-- **The pairs that are accepted one after another.** -/
theorem fcgiEnvAddAll_eq_some {ps : List EnvPair} {env env' : Bytes} (h : fcgiEnvAddAll env ps = some env')
    (henv : env.length < maxLength) : ∃ pairs : List (Bytes × Bytes), ps = pairs.map (fun p => (p.1, some p.2)) ∧
      env' = env ++ pairs.flatMap encodePair ∧ env'.length < maxLength := by
  induction ps generalizing env with
  | nil =>
    cases h
    exact ⟨[], rfl, by simp, henv⟩
  | cons p ps ih =>
    obtain ⟨env₁, hadd, h⟩ := Option.bind_eq_some_iff.mp h
    obtain ⟨val, hval, heq, hlen⟩ := fcgiEnvAdd_eq_some hadd
    obtain ⟨pairs, hps, henv', hlen'⟩ := ih h hlen
    refine ⟨(p.1, val) :: pairs, ?_, ?_, hlen'⟩
    · rw [List.map_cons, hps, ← hval]
    · rw [henv', heq, List.flatMap_cons, List.append_assoc]

theorem length_encodePair_le {pairs : List (Bytes × Bytes)} {p : Bytes × Bytes} (h : p ∈ pairs) :
    p.1.length ≤ (pairs.flatMap encodePair).length ∧ p.2.length ≤ (pairs.flatMap encodePair).length := by
  induction pairs with
  | nil => cases h
  | cons q pairs ih =>
    rw [List.flatMap_cons, List.length_append]
    rcases List.mem_cons.mp h with rfl | h
    · unfold encodePair
      simp only [List.length_append]
      omega
    · have := ih h
      omega

/-! ## The records -/

def record (type : Byte) (requestId : Nat) (content : Bytes) : Record := ⟨1, type, requestId, content, [], 0⟩

theorem record_fits {type : Byte} {requestId : Nat} {content : Bytes} (hid : requestId < 65536)
    (h : content.length ≤ maxLength) : (record type requestId content).Fits where
  requestId := hid
  content := by
    unfold maxLength at h
    exact Nat.lt_succ_of_le h
  padding := Nat.zero_lt_succ _

theorem and_toUInt8 (n : Nat) : (n &&& 0xff).toUInt8 = n.toUInt8 := by
  rw [show (0xff : Nat) = 2 ^ 8 - 1 from rfl, Nat.and_two_pow_sub_one_eq_mod]
  apply UInt8.toNat_inj.mp
  simp only [Nat.toUInt8_eq, UInt8.toNat_ofNat']
  omega

/-- **A header, with as much content behind it as it announces, is a record.** -/
theorem fcgiHeader_spec {type : Byte} {requestId : Nat} {content : Bytes} (h : content.length ≤ maxLength) :
    ∃ header, fcgiHeader type requestId content.length 0 = some header ∧ header.length = 8 ∧
      header ++ content = encode (record type requestId content) := by
  unfold fcgiHeader
  rw [if_pos h]
  refine ⟨_, rfl, rfl, ?_⟩
  rw [and_toUInt8, and_toUInt8, and_toUInt8, and_toUInt8, Nat.shiftRight_eq_div_pow, Nat.shiftRight_eq_div_pow]
  unfold record encode
  rw [List.append_nil]
  rfl

theorem length_encode_record (type : Byte) (requestId : Nat) (content : Bytes) :
    (encode (record type requestId content)).length = 8 + content.length := by
  unfold record encode
  simp only [List.append_nil, List.length_append, List.length_cons, List.length_nil]

variable {stream taken : Bytes} {len : Nat} {s : Sender}

theorem appendHeader_spec (h : Carries stream len taken s) {n : Nat} (hn : n ≤ maxLength) :
    ∃ wb header, appendHeader s n = some { s with wb := wb, wbReqlen := s.wbReqlen + 8 } ∧
      Carries stream len taken { s with wb := wb, wbReqlen := s.wbReqlen + 8 } ∧
      queued { s with wb := wb, wbReqlen := s.wbReqlen + 8 } = s.queued ++ header ∧
      ∀ content : Bytes, content.length = n → header ++ content = encode (record stdin s.requestId content) := by
  have hrep : (List.replicate n (0 : Byte)).length = n := List.length_replicate
  obtain ⟨header, heq, hlen, -⟩ := @fcgiHeader_spec stdin s.requestId (List.replicate n 0) (by rw [hrep]; exact hn)
  rw [hrep] at heq
  obtain ⟨wb, happ, hg⟩ := appendMem_grown h.wb.wf header
  obtain ⟨hc, hq⟩ := h.grown hg (s.wbReqlen + 8)
  refine ⟨wb, header, ?_, hc, hq, ?_⟩
  · unfold appendHeader
    rw [heq, Option.bind_eq_bind, Option.bind_some, happ]
    rfl
  · intro content hcontent
    obtain ⟨header', heq', -, henc⟩ := @fcgiHeader_spec stdin s.requestId content (by rw [hcontent]; exact hn)
    rw [hcontent, heq] at heq'
    cases heq'
    exact henc

/-- **What `fcgi_stdin_append` adds**: the records of the pieces of what is in the queue of the content, with as many
headers counted. -/
structure Appended (s s' : Sender) (pieces : List Bytes) : Prop where
  queued : s'.queued = s.queued ++ pieces.flatMap fun p => encode (record stdin s.requestId p)
  content : s.con.contentQueue.content s.con.world = pieces.flatten ++ s'.con.contentQueue.content s'.con.world
  nonempty : ∀ p ∈ pieces, p ≠ []
  size : ∀ p ∈ pieces, p.length ≤ maxLength
  wbReqlen : s'.wbReqlen = s.wbReqlen + 8 * pieces.length
  same : SameContext s s'

theorem stdinPieces_spec (fuel : Nat) {rest : Nat} (hfuel : rest ≤ fuel) (h : Carries stream len taken s)
    (hrest : rest = s.con.contentQueue.total) : ∃ s' pieces, stdinPieces fuel rest s = some s' ∧
      Carries stream len (taken ++ pieces.flatten) s' ∧ Appended s s' pieces ∧
      s'.con.contentQueue.content s'.con.world = [] := by
  induction fuel generalizing rest s taken with
  | zero =>
    obtain rfl : rest = 0 := by omega
    have hnil : s.con.contentQueue.content s.con.world = [] :=
      List.length_eq_zero_iff.mp (by rw [h.body.length_content, ← hrest])
    refine ⟨s, [], rfl, ?_, ⟨?_, ?_, nofun, nofun, ?_, ⟨rfl, rfl, rfl, rfl, rfl, rfl, rfl⟩⟩, hnil⟩
    · simpa using h
    · simp
    · simp
    · simp
  | succ fuel ih =>
    by_cases h0 : rest = 0
    · subst h0
      have hnil : s.con.contentQueue.content s.con.world = [] :=
        List.length_eq_zero_iff.mp (by rw [h.body.length_content, ← hrest])
      refine ⟨s, [], rfl, ?_, ⟨?_, ?_, nofun, nofun, ?_, ⟨rfl, rfl, rfl, rfl, rfl, rfl, rfl⟩⟩, hnil⟩
      · simpa using h
      · simp
      · simp
      · simp
    · obtain ⟨n, rfl⟩ := Nat.exists_eq_succ_of_ne_zero h0
      generalize hw : (if n + 1 > maxLength then maxLength else n + 1) = weWant
      have hwant : weWant ≤ maxLength ∧ weWant ≤ n + 1 ∧ 0 < weWant := by
        unfold maxLength at hw ⊢
        split at hw
        · omega
        · omega
      obtain ⟨wb₁, header, happ, hc₁, hq₁, henc⟩ := appendHeader_spec h hwant.1
      have hn : weWant ≤ s.con.contentQueue.total := by omega
      obtain ⟨wb₂, cq, piece, hsteal, hlen, hc₂, hcontent, hq₂, htot, hin⟩ := hc₁.stolen (n := weWant) hn
      have hrest' : n + 1 - weWant = cq.total := by
        change cq.total + weWant = s.con.contentQueue.total at htot
        omega
      obtain ⟨s', pieces, heq, hc', happ', hnil⟩ := ih (by omega) hc₂ hrest'
      refine ⟨s', piece :: pieces, ?_, ?_, ⟨?_, ?_, ?_, ?_, ?_, ?_⟩, hnil⟩
      · unfold stdinPieces
        dsimp only
        rw [hw, happ, Option.bind_eq_bind, Option.bind_some]
        dsimp only
        rw [hsteal]
        exact heq
      · rw [List.flatten_cons, ← List.append_assoc]
        exact hc'
      · rw [happ'.queued, hq₂, hq₁, List.flatMap_cons, ← henc piece hlen]
        simp only [List.append_assoc]
      · rw [List.flatten_cons, List.append_assoc, ← happ'.content]
        exact hcontent
      · intro p hp
        rcases List.mem_cons.mp hp with rfl | hp
        · rintro rfl
          rw [List.length_nil] at hlen
          omega
        · exact happ'.nonempty p hp
      · intro p hp
        rcases List.mem_cons.mp hp with rfl | hp
        · rw [hlen]
          exact hwant.1
        · exact happ'.size p hp
      · rw [happ'.wbReqlen, List.length_cons]
        dsimp only
        omega
      · have hsame : SameContext s
            { s with wb := wb₂, wbReqlen := s.wbReqlen + 8, con := { s.con with contentQueue := cq } } :=
          ⟨rfl, rfl, rfl, rfl, rfl, rfl, hin⟩
        exact hsame.trans happ'.same

/-! ## The request -/

/-- **The records of a request**: the one that begins it, the environment and the end of it, pieces of the body, and
the end of the body. -/
def records (requestId : Nat) (mode : Byte) (env : Bytes) (pieces : List Bytes) (done : Bool) : List Record :=
  [record beginRequest requestId [0, mode, 0, 0, 0, 0, 0, 0], record params requestId env,
    record params requestId []] ++ (pieces.map (record stdin requestId) ++
      if done then [record stdin requestId []] else [])

theorem length_records (requestId : Nat) (mode : Byte) (env : Bytes) (pieces : List Bytes) (done : Bool) :
    ((records requestId mode env pieces done).flatMap encode).length =
      32 + env.length + 8 * pieces.length + pieces.flatten.length + if done then 8 else 0 := by
  have hpieces : ((pieces.map (record stdin requestId)).flatMap encode).length =
      8 * pieces.length + pieces.flatten.length := by
    induction pieces with
    | nil => rfl
    | cons p pieces ih =>
      simp only [List.map_cons, List.flatMap_cons, List.length_append, ih, length_encode_record, List.length_cons,
        List.flatten_cons]
      omega
  have hdone : ((if done then [record stdin requestId []] else []).flatMap encode).length = if done then 8 else 0 := by
    cases done with
    | true => rfl
    | false => rfl
  unfold records
  simp only [List.flatMap_append, List.flatMap_cons, List.flatMap_nil, List.length_append, length_encode_record, hpieces,
    hdone, List.length_cons, List.length_nil]
  omega

theorem records_append (requestId : Nat) (mode : Byte) (env : Bytes) (pieces pieces' : List Bytes) :
    (records requestId mode env (pieces ++ pieces') false).flatMap encode =
      (records requestId mode env pieces false).flatMap encode ++
        pieces'.flatMap fun p => encode (record stdin requestId p) := by
  unfold records
  simp only [List.map_append, List.flatMap_append, List.flatMap_map, Bool.false_eq_true, if_false, List.append_nil,
    List.append_assoc]

theorem records_done (requestId : Nat) (mode : Byte) (env : Bytes) (pieces : List Bytes) :
    (records requestId mode env pieces true).flatMap encode =
      (records requestId mode env pieces false).flatMap encode ++ encode (record stdin requestId []) := by
  unfold records
  simp only [List.flatMap_append, if_true, Bool.false_eq_true, if_false, List.flatMap_cons, List.flatMap_nil,
    List.append_nil, List.append_assoc]

theorem records_fits {requestId : Nat} {mode : Byte} {env : Bytes} {pieces : List Bytes} (hid : requestId < 65536)
    (henv : env.length < maxLength) (hpieces : ∀ p ∈ pieces, p.length ≤ maxLength) (done : Bool) :
    ∀ r ∈ records requestId mode env pieces done, r.Fits := by
  intro r hr
  unfold records at hr
  simp only [List.cons_append, List.nil_append, List.mem_cons, List.mem_append, List.mem_map] at hr
  have hempty : ∀ type, (record type requestId []).Fits := fun type => record_fits hid (Nat.zero_le _)
  rcases hr with rfl | rfl | rfl | ⟨p, hp, rfl⟩ | hr
  · exact record_fits hid (by simp [maxLength])
  · exact record_fits hid (Nat.le_of_lt henv)
  · exact hempty params
  · exact record_fits hid (hpieces p hp)
  · split at hr
    · rw [List.mem_singleton.mp hr]
      exact hempty stdin
    · cases hr

/-- **A request of which `pieces` of the body have been queued**; `done` says that the end of the body has been. -/
structure Encoding (stream : Bytes) (len : Nat) (mode : Byte) (env : Bytes) (pieces : List Bytes) (done : Bool)
    (s : Sender) : Prop where
  carries : Carries stream len pieces.flatten s
  nonempty : ∀ p ∈ pieces, p ≠ []
  size : ∀ p ∈ pieces, p.length ≤ maxLength
  queued : s.queued = (records s.requestId mode env pieces done).flatMap encode
  wbReqlen : s.wbReqlen = 32 + env.length + len + 8 * pieces.length + if done then 8 else 0

variable {mode : Byte} {env : Bytes} {pieces : List Bytes} {done : Bool}

theorem Encoding.counters (h : Encoding stream len mode env pieces done s) :
    s.wb.bytesIn + len = s.wbReqlen + pieces.flatten.length := by
  have hin := h.carries.bytesIn
  rw [h.queued, length_records] at hin
  rw [h.wbReqlen, hin]
  cases done with
  | true =>
    simp only [if_true]
    omega
  | false =>
    simp only [Bool.false_eq_true, if_false]
    omega

theorem Encoding.congr {s' : Sender} (h : Encoding stream len mode env pieces done s)
    (hc : Carries stream len pieces.flatten s') (hq : s'.queued = s.queued) (hid : s'.requestId = s.requestId)
    (hreq : s'.wbReqlen = s.wbReqlen) : Encoding stream len mode env pieces done s' where
  carries := hc
  nonempty := h.nonempty
  size := h.size
  queued := by rw [hq, hid, h.queued]
  wbReqlen := hreq.trans h.wbReqlen

/-- **`fcgi_stdin_append`** queues what there is of the body, and the end of the body when it is due. -/
theorem stdinAppend_spec (h : Encoding stream len mode env pieces false s) : ∃ s' pieces',
    fcgiStdinAppend s = some s' ∧
      Encoding stream len mode env pieces' (decide (pieces'.flatten.length = len)) s' ∧
      s'.con.contentQueue.content s'.con.world = [] ∧ SameContext s s' := by
  have hlen : (s.con.contentQueue.bytesIn - s.con.contentQueue.bytesOut).toNat = s.con.contentQueue.total := by
    rw [h.carries.balance.balance, Int.toNat_natCast]
  obtain ⟨s₁, ps, heq, hc, happ, hnil⟩ := stdinPieces_spec _ (Nat.le_refl _) h.carries hlen
  have h₁ : Encoding stream len mode env (pieces ++ ps) false s₁ := by
    refine ⟨by rw [List.flatten_append]; exact hc, ?_, ?_, ?_, ?_⟩
    · intro p hp
      rcases List.mem_append.mp hp with hp | hp
      · exact h.nonempty p hp
      · exact happ.nonempty p hp
    · intro p hp
      rcases List.mem_append.mp hp with hp | hp
      · exact h.size p hp
      · exact happ.size p hp
    · rw [happ.queued, h.queued, happ.same.requestId, records_append]
    · have hreq := h.wbReqlen
      simp only [Bool.false_eq_true, if_false] at hreq ⊢
      rw [happ.wbReqlen, hreq, List.length_append]
      omega
  have hcount := h₁.counters
  by_cases hdue : s₁.wb.bytesIn = s₁.wbReqlen
  · have hall : (pieces ++ ps).flatten.length = len := by omega
    obtain ⟨wb, header, hhead, hc₂, hq₂, henc⟩ := appendHeader_spec hc (Nat.zero_le maxLength)
    refine ⟨{ s₁ with wb := wb, wbReqlen := s₁.wbReqlen + 8 }, pieces ++ ps, ?_, ?_, hnil,
      happ.same.trans ⟨rfl, rfl, rfl, rfl, rfl, rfl, rfl⟩⟩
    · unfold fcgiStdinAppend
      dsimp only
      rw [heq, Option.bind_eq_bind, Option.bind_some, if_pos hdue]
      exact hhead
    · rw [decide_eq_true hall]
      refine ⟨by rw [List.flatten_append]; exact hc₂, h₁.nonempty, h₁.size, ?_, ?_⟩
      · have hend : header = encode (record stdin s₁.requestId []) := by
          rw [← henc [] rfl, List.append_nil]
        rw [hq₂, h₁.queued, records_done, hend]
      · have hreq := h₁.wbReqlen
        simp only [Bool.false_eq_true, if_false, if_true] at hreq ⊢
        rw [hreq]
        omega
  · have hall : ¬ (pieces ++ ps).flatten.length = len := by omega
    refine ⟨s₁, pieces ++ ps, ?_, ?_, hnil, happ.same⟩
    · unfold fcgiStdinAppend
      dsimp only
      rw [heq, Option.bind_eq_bind, Option.bind_some, if_neg hdue]
    · rw [decide_eq_false hall]
      exact h₁

/-- **What `fcgi_create_env` queues** when nothing is queued: the request with all that there is of the body; or the
environment does not fit, and the status is 400. -/
theorem createEnv_spec (req : EnvCon) (host : EnvHost) (h : Carries stream len [] s) (hq : s.queued = []) :
    (∃ (env : Bytes) (pairs : List (Bytes × Bytes)) (s' : Sender) (pieces : List Bytes),
      fcgiCreateEnv req host s = some (true, s') ∧
        req.fcgiEnv host len = pairs.map (fun p => (p.1, some p.2)) ∧ env = pairs.flatMap encodePair ∧
        env.length < maxLength ∧
        Encoding stream len host.mode env pieces (decide (pieces.flatten.length = len)) s' ∧
        s'.con.contentQueue.content s'.con.world = [] ∧ SameContext s s') ∨
      ∃ con, fcgiCreateEnv req host s = some (false, { s with con := con }) := by
  obtain ⟨begin, hbegin, -, hbeginRec⟩ :=
    @fcgiHeader_spec beginRequest s.requestId [0, host.mode, 0, 0, 0, 0, 0, 0] (by simp [maxLength])
  have hbegin' : fcgiHeader beginRequest s.requestId 8 0 = some begin := hbegin
  cases hall : fcgiEnvAddAll [] (req.fcgiEnv host s.con.contentLength) with
  | none =>
    refine .inr ⟨{ s.con with httpStatus := 400 }, ?_⟩
    unfold fcgiCreateEnv
    rw [hbegin', Option.bind_eq_bind, Option.bind_some, hall]
    rfl
  | some env =>
    obtain ⟨pairs, hpairs, henv, hlen⟩ := fcgiEnvAddAll_eq_some hall (Nat.zero_lt_succ _)
    rw [List.nil_append] at henv
    obtain ⟨header, hheader, -, hheaderRec⟩ := @fcgiHeader_spec params s.requestId env (Nat.le_of_lt hlen)
    obtain ⟨last, hlast, -, hlastRec⟩ := @fcgiHeader_spec params s.requestId [] (Nat.zero_le _)
    rw [List.append_nil] at hlastRec
    generalize hb : (((Buffer.init.copyStringLen (begin ++ [0, host.mode, 0, 0, 0, 0, 0, 0])).appendStringLen
      header).appendStringLen env).appendStringLen last = b
    have hstr : b.str = (records s.requestId host.mode env [] false).flatMap encode := by
      rw [← hb]
      unfold records
      simp only [Buffer.appendStringLen_str, Buffer.copyStringLen_str, hbeginRec, hlastRec, List.append_assoc,
        List.map_nil, List.flatMap_cons, List.flatMap_nil, Bool.false_eq_true,
        if_false, List.append_nil]
      rw [← List.append_assoc header env, hheaderRec]
    obtain ⟨wb, b', happ, hg, -⟩ := appendBuffer_grown h.wb.wf b
    obtain ⟨hc, hq'⟩ := h.grown hg (b.stringLength + s.con.contentLength)
    rw [hq, List.nil_append] at hq'
    have hbl : b.stringLength = 32 + env.length := by
      rw [Buffer.stringLength_eq, hstr, length_records]
      simp
    have henc : Encoding stream len host.mode env [] false
        { s with wb := wb, wbReqlen := b.stringLength + s.con.contentLength } := by
      refine ⟨hc, nofun, nofun, hq'.trans hstr, ?_⟩
      dsimp only
      rw [hbl, h.contentLength]
      simp
    obtain ⟨s', pieces, hstdin, henc', hnil, hsame⟩ := stdinAppend_spec henc
    refine .inl ⟨env, pairs, s', pieces, ?_, h.contentLength ▸ hpairs, henv, hlen, henc', hnil,
      ⟨hsame.host, hsame.state, hsame.requestId, hsame.reconnects, hsame.wire, hsame.closed, hsame.bytesIn⟩⟩
    unfold fcgiCreateEnv
    have hlast' : fcgiHeader params s.requestId 0 0 = some last := hlast
    simp only [hbegin', hall, hheader, hlast', hb, happ, hstdin, Option.bind_eq_bind, Option.bind_some]
    rfl

end Fcgi
end Lighttpd
