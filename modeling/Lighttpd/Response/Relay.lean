import Lighttpd.Http.ChunkStream
import Lighttpd.Response.ByteRange
import Lighttpd.Request.RequestLine

/-!
# A response behind a proxy (`http-header-glue.c`, `response.c`, `mod_proxy.c`)

A field of a response that is set more than once has all its lines in one value, with the line ends and the key between
them (`data_response_insert_dup`). `http_response_write_header` copies the values as they are, and `proxy_response_parse`
of the server in front inserts line after line.

- `Lined`: the values of the fields are lines, and no two fields have the same key; every change of the fields keeps that;
- `insertLines_append`: the lines of a value, inserted one after another, give the value again;
- `anyLines_lines`: the lines of the header;
- `relayed`: the server in front has the same fields, but for `Connection`.
-/

namespace Lighttpd
namespace Respond
open Request Backend

/-! ## Changes of the fields -/

/-- `response_header_append`. -/
def appendHeader (hs : Headers) (key value : Bytes) : Headers :=
  match hs.getIndex key with
  | some n => hs.modify n fun ds => { ds with value := ds.value ++ ascii ", " ++ value }
  | none => insertHeader hs ⟨key, value⟩

/-- The functions that set fields of a response. -/
inductive FieldOp where
  | insert (key value : Bytes)
  | overwrite (key value : Bytes)
  | append (key value : Bytes)

/-- `response_header_insert`, `response_header_overwrite` and `response_header_append`. -/
def FieldOp.apply (hs : Headers) : FieldOp → Headers
  | .insert key value => insertHeader hs ⟨key, value⟩
  | .overwrite key value => Con.overwriteHeader hs key value
  | .append key value => appendHeader hs key value

/-- A name that may stand in front of the colon. -/
def IsName (key : Bytes) : Prop := 0 ∉ key ∧ 10 ∉ key ∧ chr ':' ∉ key

/-- A text on one line that does not start with a blank. -/
def IsText (value : Bytes) : Prop := 0 ∉ value ∧ 10 ∉ value ∧ ∀ c ∈ value.head?, isWs c = false

def FieldOp.Plain : FieldOp → Prop
  | .insert key value | .overwrite key value | .append key value => IsName key ∧ IsText value

/-! ## Fields with more than one line -/

def lineOf (key value : Bytes) : Bytes := key ++ ascii ": " ++ value

def joined (key : Bytes) : List Bytes → Bytes
  | [] => []
  | v :: vs => v ++ vs.flatMap fun w => ascii "\r\n" ++ lineOf key w

/-- The value of the field is made of lines. -/
def IsLines (ds : DataString) (vs : List Bytes) : Prop :=
  ds.value = joined ds.key vs ∧ vs ≠ [] ∧ IsName ds.key ∧ ∀ v ∈ vs, IsText v

/-- **What the fields of a response are.** -/
structure Lined (hs : Headers) : Prop where
  lines : ∀ ds ∈ hs, ∃ vs, IsLines ds vs
  keys : hs.Pairwise fun ds ds' => caselessCompare ds.key ds'.key ≠ 0

variable {hs : Headers} {key value : Bytes} {ds : DataString} {vs : List Bytes}

theorem joined_concat (key : Bytes) {vs : List Bytes} (hne : vs ≠ []) (w : Bytes) :
    joined key (vs ++ [w]) = joined key vs ++ ascii "\r\n" ++ lineOf key w := by
  cases vs with
  | nil => exact absurd rfl hne
  | cons v vs => simp [joined]

theorem joined_concat_append (key : Bytes) (vs : List Bytes) (w t : Bytes) :
    joined key (vs ++ [w]) ++ t = joined key (vs ++ [w ++ t]) := by
  cases vs with
  | nil => simp [joined]
  | cons v vs => simp [joined, lineOf]

theorem IsLines.insertDup (h : IsLines ds vs) (hvalue : IsText value) :
    IsLines (responseInsertDup ⟨key, value⟩ ds) (vs ++ [value]) := by
  refine ⟨?_, by simp, h.2.2.1, fun v hv => ?_⟩
  · rw [joined_concat _ h.2.1, responseInsertDup, ← h.1]
    simp [lineOf]
  · rcases List.mem_append.mp hv with hv | hv
    · exact h.2.2.2 v hv
    · exact List.mem_singleton.mp hv ▸ hvalue

theorem IsLines.append (h : IsLines ds vs) (hvalue : IsText value) :
    ∃ ws, IsLines { ds with value := ds.value ++ ascii ", " ++ value } ws := by
  obtain ⟨us, w, rfl⟩ := (List.eq_nil_or_concat' vs).resolve_left h.2.1
  have hw := h.2.2.2 w (by simp)
  refine ⟨us ++ [w ++ (ascii ", " ++ value)], ?_, by simp, h.2.2.1, fun v hv => ?_⟩
  · rw [← joined_concat_append, ← h.1]
    simp
  · rcases List.mem_append.mp hv with hv | hv
    · exact h.2.2.2 v (List.mem_append_left _ hv)
    · rw [List.mem_singleton.mp hv]
      have hzero : (0 : Byte) ∉ ascii ", " := by decide
      have hlf : (10 : Byte) ∉ ascii ", " := by decide
      refine ⟨by simp [hw.1, hzero, hvalue.1], by simp [hw.2.1, hlf, hvalue.2.1], fun c hc => ?_⟩
      cases w with
      | nil =>
        rw [← Option.some.inj hc]
        decide
      | cons d w => exact hw.2.2 c hc

theorem isLines_singleton (hkey : IsName key) (hvalue : IsText value) : IsLines ⟨key, value⟩ [value] :=
  ⟨by simp [joined], by simp, hkey, by simpa using hvalue⟩

/-! ## Every change keeps the lines -/

theorem Lined.modify (h : Lined hs) {n : Nat} {f : DataString → DataString} (hkey : ∀ ds, (f ds).key = ds.key)
    (hf : ∀ ds vs, IsLines ds vs → ∃ ws, IsLines (f ds) ws) : Lined (hs.modify n f) := by
  have hkeys : (hs.modify n f).map DataString.key = hs.map DataString.key := by
    induction hs generalizing n with
    | nil => cases n <;> rfl
    | cons ds hs ih =>
      cases n with
      | zero => simp [hkey]
      | succ n =>
        rw [List.modify_succ_cons, List.map_cons, List.map_cons, ih ⟨fun ds hds => h.lines ds (List.mem_cons_of_mem _ hds),
          h.keys.of_cons⟩]
  have hpairwise : ∀ l : Headers, l.Pairwise (fun ds ds' => caselessCompare ds.key ds'.key ≠ 0) ↔
      (l.map DataString.key).Pairwise fun k k' => caselessCompare k k' ≠ 0 := fun l =>
    (@List.pairwise_map _ _ DataString.key (fun k k' => caselessCompare k k' ≠ 0) l).symm
  refine ⟨fun ds hds => ?_, (hpairwise _).mpr (hkeys ▸ (hpairwise _).mp h.keys)⟩
  obtain ⟨i, hi⟩ := List.mem_iff_getElem?.mp hds
  rw [List.getElem?_modify] at hi
  obtain ⟨ds', hds', heq⟩ := Option.map_eq_some_iff.mp hi
  obtain ⟨vs, hvs⟩ := h.lines ds' (List.mem_of_getElem? hds')
  split at heq
  · exact heq ▸ hf ds' vs hvs
  · exact heq ▸ ⟨vs, hvs⟩

theorem Lined.push (h : Lined hs) (hnone : hs.getIndex ds.key = none) (hds : IsLines ds vs) : Lined (hs ++ [ds]) := by
  refine ⟨fun ds' hds' => ?_, List.pairwise_append.mpr ⟨h.keys, List.pairwise_singleton _ _, fun ds' hds' d hd heq => ?_⟩⟩
  · rcases List.mem_append.mp hds' with hds' | hds'
    · exact h.lines ds' hds'
    · exact ⟨vs, List.mem_singleton.mp hds' ▸ hds⟩
  · rw [List.mem_singleton.mp hd] at heq
    have hno := List.findIdx?_eq_none_iff.mp hnone ds' hds'
    simp [caselessCompare_symm heq] at hno

theorem Lined.insertHeader (h : Lined hs) (hkey : IsName key) (hvalue : IsText value) :
    Lined (insertHeader hs ⟨key, value⟩) := by
  unfold Backend.insertHeader
  cases hn : hs.getIndex key with
  | some n => exact h.modify (fun _ => rfl) fun ds vs hds => ⟨_, hds.insertDup hvalue⟩
  | none => exact h.push hn (isLines_singleton hkey hvalue)

/-- **Every change of the fields keeps the lines.** -/
theorem FieldOp.apply_lined (h : Lined hs) {op : FieldOp} (hop : op.Plain) : Lined (op.apply hs) := by
  cases op with
  | insert key value => exact h.insertHeader hop.1 hop.2
  | overwrite key value =>
    rw [apply, Con.overwriteHeader]
    cases hn : hs.getIndex key with
    | some n =>
      exact h.modify (fun _ => rfl) fun ds vs hds => ⟨_, isLines_singleton hds.2.2.1 hop.2⟩
    | none => exact h.push hn (isLines_singleton hop.1 hop.2)
  | append key value =>
    rw [apply, appendHeader]
    cases hn : hs.getIndex key with
    | some n => exact h.modify (fun _ => rfl) fun ds vs hds => hds.append hop.2
    | none => exact h.insertHeader hop.1 hop.2

theorem lined_foldl (h : Lined hs) {ops : List FieldOp} (hops : ∀ op ∈ ops, op.Plain) :
    Lined (ops.foldl FieldOp.apply hs) := by
  induction ops generalizing hs with
  | nil => exact h
  | cons op ops ih =>
    rw [List.forall_mem_cons] at hops
    exact ih (FieldOp.apply_lined h hops.1) hops.2

theorem lined_nil : Lined [] := ⟨nofun, List.Pairwise.nil⟩

/-! ## Lines that are read -/

theorem lfLines_line {line : Bytes} (h : 10 ∉ line) (pre s : Bytes) :
    lfLines pre (line ++ 10 :: s) = (pre ++ line) :: lfLines [] s := by
  induction line generalizing pre with
  | nil => simp [lfLines]
  | cons c line ih =>
    rw [List.mem_cons, not_or] at h
    rw [List.cons_append, lfLines, if_neg (Ne.symm h.1), ih h.2]
    simp

/-- **The lines of a header** are read as they were written. -/
theorem anyLines_lines {ls : List Bytes} (h : ∀ l ∈ ls, 0 ∉ l ∧ 10 ∉ l) :
    anyLines (ls.flatMap fun l => l ++ ascii "\r\n") = ls := by
  have hcrlf : ascii "\r\n" = [13, 10] := rfl
  have hzero : (0 : Byte) ∉ ls.flatMap fun l => l ++ ascii "\r\n" := by
    intro hmem
    obtain ⟨l, hl, hmem⟩ := List.mem_flatMap.mp hmem
    rw [hcrlf] at hmem
    have hno := (h l hl).1
    simp [hno] at hmem
  rw [anyLines, cstr_eq_self hzero]
  clear hzero
  induction ls with
  | nil => rfl
  | cons l ls ih =>
    rw [List.forall_mem_cons] at h
    have hlf : (10 : Byte) ∉ l ++ [13] := by simp [h.1.2]
    have happend : (l ++ ascii "\r\n") ++ (ls.flatMap fun l => l ++ ascii "\r\n") =
        (l ++ [13]) ++ 10 :: (ls.flatMap fun l => l ++ ascii "\r\n") := by simp [hcrlf]
    rw [List.flatMap_cons, happend, lfLines_line hlf, List.map_cons, ih h.2]
    simp [stripCr]

theorem lines_crlf (l : Bytes) (ls : List Bytes) :
    l ++ (ls.flatMap fun l => ascii "\r\n" ++ l) ++ ascii "\r\n" = (l :: ls).flatMap fun l => l ++ ascii "\r\n" := by
  induction ls generalizing l with
  | nil => simp
  | cons l' ls ih =>
    have hcons : (l :: l' :: ls).flatMap (fun l => l ++ ascii "\r\n") =
        (l ++ ascii "\r\n") ++ (l' :: ls).flatMap fun l => l ++ ascii "\r\n" := rfl
    rw [hcons, ← ih l', List.flatMap_cons]
    simp

theorem splitLine_lineOf (hkey : IsName key) (hvalue : IsText value) : splitLine (lineOf key value) = some (key, value) := by
  have happend : lineOf key value = key ++ chr ':' :: (chr ' ' :: value) := by
    have hcolon : ascii ": " = [chr ':', chr ' '] := rfl
    simp [lineOf, hcolon]
  have hidx : (key ++ chr ':' :: (chr ' ' :: value)).idxOf? (chr ':') = some key.length := by
    rw [List.idxOf?_eq_some_iff]
    refine ⟨by simp, by simp, fun j hj => ?_⟩
    rw [List.getElem_append_left hj]
    exact fun heq => hkey.2.2 (heq ▸ List.getElem_mem hj)
  have hdrop : (chr ' ' :: value).dropWhile isWs = value := by
    have hblank : isWs (chr ' ') = true := rfl
    rw [List.dropWhile_cons_of_pos hblank]
    exact dropWhile_eq_self hvalue.2.2
  rw [splitLine, happend, hidx]
  simp [hdrop]

theorem proxyField_lineOf (r : Reply) (hkey : IsName key) (hvalue : IsText value) :
    (r.proxyField (lineOf key value)).httpStatus = r.httpStatus ∧
      (r.proxyField (lineOf key value)).headers =
        if isKey key "Connection" then r.headers else insertHeader r.headers ⟨key, value⟩ := by
  rw [Reply.proxyField, splitLine_lineOf hkey hvalue]
  dsimp only
  split_ifs <;> exact ⟨rfl, rfl⟩

/-- **The lines of a field, inserted one after another.** -/
theorem insertLines_append (hnone : hs.getIndex key = none) (hne : vs ≠ []) :
    vs.foldl (fun hs v => insertHeader hs ⟨key, v⟩) hs = hs ++ [⟨key, joined key vs⟩] := by
  induction vs using List.reverseRecOn with
  | nil => exact absurd rfl hne
  | append_singleton vs w ih =>
    rw [List.foldl_append, List.foldl_cons, List.foldl_nil]
    cases vs with
    | nil =>
      rw [List.foldl_nil, Backend.insertHeader, hnone]
      simp [joined]
    | cons v vs =>
      have hself : (hs ++ [⟨key, joined key (v :: vs)⟩] : Headers).getIndex key = some hs.length := by
        rw [Headers.getIndex_push, hnone, if_pos (caselessCompare_eq_zero.mpr rfl)]
        rfl
      have hmodify : ∀ f : DataString → DataString, (hs ++ [⟨key, joined key (v :: vs)⟩] : Headers).modify hs.length f =
          hs ++ [f ⟨key, joined key (v :: vs)⟩] := fun f => by
        rw [List.modify_eq_take_cons_drop (by simp)]
        simp
      rw [ih (by simp), Backend.insertHeader, hself, joined_concat key (by simp)]
      simp [hmodify, responseInsertDup, lineOf]

/-! ## The fields in front -/

/-- The field is copied by `proxy_response_parse`. -/
def isCopied (ds : DataString) : Bool := !isKey ds.key "Connection"

theorem proxyFields_field {ds : DataString} {vs : List Bytes} (h : IsLines ds vs) (r : Reply)
    (hnone : r.headers.getIndex ds.key = none) :
    ((vs.map (lineOf ds.key)).foldl Reply.proxyField r).httpStatus = r.httpStatus ∧
      ((vs.map (lineOf ds.key)).foldl Reply.proxyField r).headers = r.headers ++ if isCopied ds then [ds] else [] := by
  have hfold : ∀ (ws : List Bytes) (r : Reply), (∀ v ∈ ws, IsText v) →
      ((ws.map (lineOf ds.key)).foldl Reply.proxyField r).httpStatus = r.httpStatus ∧
        ((ws.map (lineOf ds.key)).foldl Reply.proxyField r).headers =
          if isKey ds.key "Connection" then r.headers else ws.foldl (fun hs v => insertHeader hs ⟨ds.key, v⟩) r.headers := by
    intro ws
    induction ws with
    | nil => exact fun r _ => ⟨rfl, (ite_self r.headers).symm⟩
    | cons w ws ih =>
      intro r hws
      rw [List.forall_mem_cons] at hws
      obtain ⟨hstatus, hheaders⟩ := proxyField_lineOf r h.2.2.1 hws.1
      rw [List.map_cons, List.foldl_cons, (ih _ hws.2).1, (ih _ hws.2).2, hstatus, hheaders]
      refine ⟨rfl, ?_⟩
      split <;> rfl
  obtain ⟨hstatus, hheaders⟩ := hfold vs r h.2.2.2
  refine ⟨hstatus, hheaders.trans ?_⟩
  rw [insertLines_append hnone h.2.1, ← h.1, isCopied]
  cases isKey ds.key "Connection" <;> simp

/-- **The lines of the fields.** The fields in front keep them apart, as no two of them have the same key. -/
theorem lines_of_fields (fs : Headers) (hl : ∀ ds ∈ fs, ∃ vs, IsLines ds vs) :
    ∃ ls : List Bytes, fs.flatMap Con.fieldLine = (ls.flatMap fun l => ascii "\r\n" ++ l) ∧ (∀ l ∈ ls, 0 ∉ l ∧ 10 ∉ l) ∧
      ∀ r : Reply, (r.headers ++ fs).Pairwise (fun ds ds' => caselessCompare ds.key ds'.key ≠ 0) →
        (ls.foldl Reply.proxyField r).httpStatus = r.httpStatus ∧
          (ls.foldl Reply.proxyField r).headers = r.headers ++ fs.filter isCopied := by
  induction fs with
  | nil => exact ⟨[], rfl, nofun, fun r _ => ⟨rfl, (List.append_nil _).symm⟩⟩
  | cons ds fs ih =>
    rw [List.forall_mem_cons] at hl
    obtain ⟨vs, hvs⟩ := hl.1
    obtain ⟨ls, htext, hclean, hread⟩ := ih hl.2
    refine ⟨vs.map (lineOf ds.key) ++ ls, ?_, ?_, fun r hr => ?_⟩
    · rw [List.flatMap_cons, htext, List.flatMap_append]
      congr 1
      obtain ⟨v, ws, rfl⟩ := List.exists_cons_of_ne_nil hvs.2.1
      have hvalue := hvs.1
      rw [Con.fieldLine, hvalue]
      simp [joined, lineOf, List.flatMap_map]
    · intro l hmem
      rcases List.mem_append.mp hmem with hmem | hmem
      · obtain ⟨v, hv, rfl⟩ := List.mem_map.mp hmem
        have hzero : (0 : Byte) ∉ ascii ": " := by decide
        have hlf : (10 : Byte) ∉ ascii ": " := by decide
        have htext := hvs.2.2.2 v hv
        have hkey := hvs.2.2.1
        simp [lineOf, hkey.1, hkey.2.1, htext.1, htext.2.1, hzero, hlf]
      · exact hclean l hmem
    · have hnone : r.headers.getIndex ds.key = none := by
        refine List.findIdx?_eq_none_iff.mpr fun ds' hds' => ?_
        have hne := (List.pairwise_append.mp hr).2.2 ds' hds' ds List.mem_cons_self
        simpa using fun h : caselessCompare ds.key ds'.key = 0 => hne (caselessCompare_symm h)
      obtain ⟨hstatus, hheaders⟩ := proxyFields_field hvs r hnone
      have hpairwise : ((r.headers ++ if isCopied ds then [ds] else []) ++ fs).Pairwise
          (fun ds ds' => caselessCompare ds.key ds'.key ≠ 0) := by
        refine hr.sublist ?_
        cases isCopied ds with
        | true => simp
        | false => simp
      rw [List.foldl_append]
      obtain ⟨hstatus', hheaders'⟩ := hread _ (hheaders ▸ hpairwise)
      refine ⟨hstatus'.trans hstatus, hheaders'.trans ?_⟩
      rw [hheaders, List.filter_cons]
      cases isCopied ds <;> simp

/-- The fields that `http_response_write_header` adds. -/
def Con.sentFields (conf : Conf) (c : Con) : Headers :=
  c.fields ++ (if c.fields.any fun ds => isKey ds.key "Date" then [] else [⟨ascii "Date", conf.tsDateStr⟩]) ++
    (if c.fields.any (fun ds => isKey ds.key "Server") || conf.serverTag == [] then []
      else [⟨ascii "Server", conf.serverTag⟩])

def Con.statusLine (c : Con) : Bytes :=
  ascii (if c.out.http11 then "HTTP/1.1 " else "HTTP/1.0 ") ++ liUtostrn c.httpStatus ++ ascii " " ++
    getHttpStatusName c.httpStatus

theorem headerText_fields (conf : Conf) (c : Con) :
    c.headerText conf = c.statusLine ++ (c.sentFields conf).flatMap Con.fieldLine ++ ascii "\r\n" ++ ascii "\r\n" := by
  have hdate : Con.fieldLine ⟨ascii "Date", conf.tsDateStr⟩ = ascii "\r\nDate: " ++ conf.tsDateStr := rfl
  have hserver : Con.fieldLine ⟨ascii "Server", conf.serverTag⟩ = ascii "\r\nServer: " ++ conf.serverTag := rfl
  have hend : ascii "\r\n\r\n" = ascii "\r\n" ++ ascii "\r\n" := rfl
  rw [Con.headerText, Con.sentFields, Con.statusLine, List.flatMap_append, List.flatMap_append, hend]
  cases c.fields.any fun ds => isKey ds.key "Date" <;>
    cases c.fields.any (fun ds => isKey ds.key "Server") || conf.serverTag == [] <;> simp [hdate, hserver]

theorem Lined.addField (h : Lined hs) {name : String} (hname : IsName (ascii name)) (hvalue : IsText value)
    (hnone : hs.any (fun ds => isKey ds.key name) = false) : Lined (hs ++ [⟨ascii name, value⟩]) := by
  refine h.push (List.findIdx?_eq_none_iff.mpr fun ds hds => ?_) (isLines_singleton hname hvalue)
  have hno := List.any_eq_false.mp hnone ds hds
  rw [isKey, beq_iff_eq] at hno
  simpa using fun heq : caselessCompare (ascii name) ds.key = 0 => hno (caselessCompare_symm heq)

theorem sentFields_lined {conf : Conf} {c : Con} (h : Lined c.reply.headers) (hdate : IsText conf.tsDateStr)
    (htag : IsText conf.serverTag) : Lined (c.sentFields conf) := by
  have hfields : Lined c.fields :=
    ⟨fun ds hds => h.lines ds (List.mem_of_mem_filter hds), h.keys.sublist List.filter_sublist⟩
  have hserver : ∀ hs : Headers, Lined hs → hs.any (fun ds => isKey ds.key "Server") =
      c.fields.any (fun ds => isKey ds.key "Server") → Lined (hs ++
        if c.fields.any (fun ds => isKey ds.key "Server") || conf.serverTag == [] then []
        else [⟨ascii "Server", conf.serverTag⟩]) := by
    intro hs hlined hsame
    split
    · rw [List.append_nil]
      exact hlined
    · next hno =>
      rw [Bool.or_eq_true, not_or] at hno
      exact hlined.addField ⟨by decide, by decide, by decide⟩ htag (hsame.trans (Bool.eq_false_iff.mpr hno.1))
  rw [Con.sentFields]
  split
  · rw [List.append_nil]
    exact hserver _ hfields rfl
  · next hno =>
    refine hserver _ (hfields.addField ⟨by decide, by decide, by decide⟩ hdate (Bool.eq_false_iff.mpr hno)) ?_
    have hdate : isKey (ascii "Date") "Server" = false := by decide
    simp [hdate]

theorem statusLine_clean (c : Con) : 0 ∉ c.statusLine ∧ 10 ∉ c.statusLine := by
  have hname : 0 ∉ getHttpStatusName c.httpStatus ∧ 10 ∉ getHttpStatusName c.httpStatus := by
    have hall : ∀ p ∈ httpStatusNames, 0 ∉ ascii p.2 ∧ 10 ∉ ascii p.2 := by decide
    rw [getHttpStatusName]
    cases hlookup : httpStatusNames.lookup c.httpStatus with
    | none => decide
    | some name =>
      obtain ⟨l₁, l₂, heq, -⟩ := List.lookup_eq_some_iff.mp hlookup
      exact hall (c.httpStatus, name) (heq ▸ by simp)
  have hdigits : 0 ∉ liUtostrn c.httpStatus ∧ 10 ∉ liUtostrn c.httpStatus := by
    have hdigit := (liUtostrn_spec c.httpStatus).2.1
    exact ⟨fun h => absurd (hdigit 0 h) (by decide), fun h => absurd (hdigit 10 h) (by decide)⟩
  have hversion : 0 ∉ ascii (if c.out.http11 then "HTTP/1.1 " else "HTTP/1.0 ") ∧
      10 ∉ ascii (if c.out.http11 then "HTTP/1.1 " else "HTTP/1.0 ") := by
    cases c.out.http11 <;> decide
  have hblank : (0 : Byte) ∉ ascii " " ∧ (10 : Byte) ∉ ascii " " := by decide
  simp [Con.statusLine, hname, hdigits, hversion, hblank]

theorem proxyStatus_statusLine {c : Con} (hlow : 100 ≤ c.httpStatus) (hhigh : c.httpStatus < 1000) :
    proxyStatus c.statusLine = c.httpStatus := by
  obtain ⟨hne, hdigits, hnumber⟩ := liUtostrn_spec c.httpStatus
  have hclean := (statusLine_clean c).1
  have hkey : c.statusLine.dropWhile (· ≠ chr ' ') =
      (chr ' ' :: liUtostrn c.httpStatus) ++ chr ' ' :: getHttpStatusName c.httpStatus := by
    rw [Con.statusLine]
    cases c.out.http11 <;> simp [ascii, chr]
  have hzero : (0 : Byte) ∉ (chr ' ' :: liUtostrn c.httpStatus) ++ chr ' ' :: getHttpStatusName c.httpStatus := by
    rw [← hkey]
    exact fun h => hclean ((List.dropWhile_sublist _).subset h)
  obtain ⟨d, ds, hds⟩ := List.exists_cons_of_ne_nil hne
  obtain ⟨hspace, hminus, hplus, -⟩ := digit_facts (hdigits d (hds ▸ List.mem_cons_self))
  have hdrop : (chr ' ' :: liUtostrn c.httpStatus).dropWhile isspace = liUtostrn c.httpStatus := by
    have hblank : isspace (chr ' ') = true := rfl
    rw [List.dropWhile_cons_of_pos hblank, hds, List.dropWhile_cons_of_neg (by simp [hspace])]
  have hsign : readSign (liUtostrn c.httpStatus) = (false, liUtostrn c.httpStatus) := by
    rw [hds]
    simp [readSign, hminus, hplus]
  have hstrtol : (strtol 10 ((chr ' ' :: liUtostrn c.httpStatus) ++ chr ' ' :: getHttpStatusName c.httpStatus)).1 =
      min (c.httpStatus : Int) longMax := by
    have hsep : ∀ x ∈ (chr ' ' :: getHttpStatusName c.httpStatus).head?, digitVal x = none := by
      intro x hx
      rw [← Option.some.inj hx]
      rfl
    rw [strtol_append hzero hsep (.inl (by rw [hdrop]; exact hne)), strtol_eq fun h => hzero (List.mem_append_left _ h), hdrop, strtolBody,
      hsign]
    simp only
    rw [readDigits_number hnumber, if_neg (Ne.symm hne), if_neg (by simp)]
  have hint : intValue ((chr ' ' :: liUtostrn c.httpStatus) ++ chr ' ' :: getHttpStatusName c.httpStatus) = c.httpStatus := by
    rw [intValue, hstrtol, toInt_eq (by omega)]
  rw [proxyStatus, hkey, List.cons_append]
  simp only
  rw [List.cons_append] at hint
  rw [hint, if_neg (by omega)]
  rfl

/-- **A response behind a proxy.** Whatever has been set in the fields of a response, in any order, the server in front
that reads its header has the same status and the same fields, with all their lines, but for `Connection`. -/
theorem relayed (ops : List FieldOp) (hops : ∀ op ∈ ops, op.Plain) (conf : Conf) (c : Con)
    (hheaders : c.reply.headers = ops.foldl FieldOp.apply []) (hdate : IsText conf.tsDateStr) (htag : IsText conf.serverTag)
    (hlow : 100 ≤ c.httpStatus) (hhigh : c.httpStatus < 1000) :
    (proxyResponseParse .init (c.headerText conf)).httpStatus = c.httpStatus ∧
      (proxyResponseParse .init (c.headerText conf)).headers = (c.sentFields conf).filter isCopied := by
  have hlined : Lined c.reply.headers := hheaders ▸ lined_foldl lined_nil hops
  have hsent := sentFields_lined hlined hdate htag
  obtain ⟨ls, htext, hclean, hread⟩ := lines_of_fields (c.sentFields conf) hsent.lines
  -- the empty line at the end is a line without a colon
  have hlines : anyLines (c.headerText conf) = c.statusLine :: (ls ++ [[]]) := by
    have hempty : ∀ l ∈ c.statusLine :: (ls ++ [[]]), 0 ∉ l ∧ 10 ∉ l := by
      simp only [List.forall_mem_cons, List.forall_mem_append]
      exact ⟨statusLine_clean c, hclean, by simp, nofun⟩
    rw [← anyLines_lines hempty, ← lines_crlf, headerText_fields, htext]
    simp
  have hinit : ((Reply.init.setStatus (proxyStatus c.statusLine)).headers ++ c.sentFields conf).Pairwise
      (fun ds ds' => caselessCompare ds.key ds'.key ≠ 0) := by
    rw [Reply.setStatus, Reply.init, List.nil_append]
    exact hsent.keys
  obtain ⟨hstatus, hfields⟩ := hread _ hinit
  have hblank : ∀ r : Reply, r.proxyField [] = r := fun _ => rfl
  rw [proxyResponseParse, hlines]
  simp only [List.foldl_append, List.foldl_cons, List.foldl_nil, hblank]
  exact ⟨hstatus.trans (proxyStatus_statusLine hlow hhigh), hfields⟩

/-- Two cookies, a length that is overwritten, and a field that gets longer. -/
def relayedOps : List FieldOp :=
  [.insert (ascii "Set-Cookie") (ascii "a=1"), .overwrite (ascii "Content-Length") (ascii "7"),
    .insert (ascii "set-cookie") (ascii "b=2"), .append (ascii "Cache-Control") (ascii "max-age=60"),
    .append (ascii "cache-control") (ascii "public"), .overwrite (ascii "Connection") (ascii "close")]

def relayedCon : Con where
  reply := { Reply.init with httpStatus := 200, headers := relayedOps.foldl FieldOp.apply [] }
  lengthReset := false
  out := Response.sampleResponse
  direct := true
  hctx := false
  sendContentBody := false
  fileStarted := true
  httpMethod := some .get
  uriPath := ascii "/"
  errorHandlerSavedStatus := 0
  errorHandlerSavedMethod := none
  bytesHeader := 0

def relayedConf : Conf := ⟨[], none, none, 1, 16, 5, ascii "Thu, 01 Jan 1970 00:00:00 GMT", ascii "lighttpd"⟩

example : ((proxyResponseParse .init (relayedCon.headerText relayedConf)).headers.map DataString.value).head? =
    some (ascii "a=1\r\nSet-Cookie: b=2") := by decide +kernel

theorem relayed_sample :
    (proxyResponseParse .init (relayedCon.headerText relayedConf)).httpStatus = relayedCon.httpStatus ∧
      (proxyResponseParse .init (relayedCon.headerText relayedConf)).headers =
        (relayedCon.sentFields relayedConf).filter isCopied := by
  refine relayed relayedOps (fun op hop => ?_) relayedConf relayedCon rfl ⟨by decide, by decide, by decide +kernel⟩
    ⟨by decide, by decide, by decide +kernel⟩ (by decide) (by decide)
  simp only [relayedOps, List.mem_cons, List.not_mem_nil, or_false] at hop
  rcases hop with rfl | rfl | rfl | rfl | rfl | rfl <;>
    exact ⟨⟨by decide, by decide, by decide +kernel⟩, ⟨by decide, by decide, by decide +kernel⟩⟩

end Respond
end Lighttpd
