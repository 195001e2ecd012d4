import Lighttpd.Backend.Scan
import Lighttpd.Http.ChunkStream

/-!
# Header and body of a CGI or SCGI response

What becomes of a response is a function of its bytes (`Demuxer.reference`), except that the limit for its header is
looked at only when the header has not been found.

- `Demuxer.run_head`, `Demuxer.run_body`: the passes before and behind the end of the header;
- `Demuxer.run_outcome`: the outcome of every run;
- `same_response_iff`: exactly when two ways of reading the same bytes have the same outcome.
-/

namespace Lighttpd
namespace Backend
open Request Splitter

/-- What the reads of a run deliver. -/
def pieces : List Event → List Bytes
  | [] => []
  | .data s _ :: es => s :: pieces es
  | _ :: es => pieces es

/-- **The events are a way of reading the bytes `s`**: up to the end, and without an error. -/
inductive Cut : Bytes → List Event → Prop
  | eof : Cut [] [.eof]
  | data {s : Bytes} {es : List Event} (t : Bytes) (ios : List Attempt) (h : Cut s es) : Cut (t ++ s) (.data t ios :: es)
  | wait {s : Bytes} {es : List Event} (h : Cut s es) : Cut s (.wait :: es)
  | connection {s : Bytes} {es : List Event} (out : Response) (h : Cut s es) : Cut s (.connection out :: es)

theorem Cut.pieces {s : Bytes} {es : List Event} (h : Cut s es) : (pieces es).flatten = s := by
  induction h with
  | eof => rfl
  | data t ios h ih =>
    show t ++ _ = t ++ _
    rw [ih]
  | wait h ih => exact ih
  | connection out h ih => exact ih

/-- What has become of a response: the parsed header, and the body that has been passed on. -/
structure Outcome where
  ret : Ret
  fileStarted : Bool
  reply : Reply
  direct : Bool
  request : LocalRequest
  forwarded : Bytes

def Demux.outcome (h : Demux) (ret : Ret) : Outcome := ⟨ret, h.fileStarted, h.reply, h.direct, h.request, h.forwarded⟩

def Demux.withBody (h : Demux) (s : Bytes) : Demux := { h with fileStarted := true, forwarded := h.forwarded ++ s }

/-- A response of which nothing has been read. -/
structure Demux.Fresh (h : Demux) : Prop where
  responseHeader : h.responseHeader = []
  fileStarted : h.fileStarted = false
  direct : h.direct = false

namespace Demuxer
variable {β : Type} (d : Demuxer β)

/-- **The response with the bytes `s`**: the outcome when the header is split off where the scan of all bytes says. -/
def reference (h : Demux) (s : Bytes) : Option Outcome :=
  match d.scanner.scan s with
  | none => some (h.outcome .finished)
  | some none => some ((h.withBody s).outcome .finished)
  | some (some v) =>
    (d.start v { h with responseHeader := d.header (s.take (d.size v)) }).map fun r =>
      if r.1 = .notFinished then (r.2.withBody (s.drop (d.size v))).outcome .finished else r.2.outcome r.1

/-! ## The body -/

variable {d} {h h' h₁ : Demux} {ret : Ret} {s : Bytes} {es : List Event}

theorem forward_ok {r : Bool × Response} (hne : d.appendFailed ≠ .notFinished)
    (hrun : (if (d.forwarded (h.forward s r)).1 = .notFinished then d.run es (d.forwarded (h.forward s r)).2
      else some (d.forwarded (h.forward s r))) = some (ret, h')) (hok : h'.failed = false) :
    ∃ out, d.run es { h with out := out, fileStarted := true, forwarded := h.forwarded ++ s } = some (ret, h') := by
  obtain ⟨taken, out⟩ := r
  cases taken with
  | true => exact ⟨out, hrun⟩
  | false =>
    have hrun : (if d.appendFailed = .notFinished then d.run es { h with out := out, failed := true }
        else some (d.appendFailed, { h with out := out, failed := true })) = some (ret, h') := hrun
    rw [if_neg hne] at hrun
    cases hrun
    cases hok

/-- **Behind the header, all that is read is passed on.** -/
theorem run_body (hne : d.appendFailed ≠ .notFinished) (hcut : Cut s es)
    (hstart : h.fileStarted = true) (hrun : d.run es h = some (ret, h')) (hok : h'.failed = false) :
    h'.outcome ret = (h.withBody s).outcome .finished := by
  induction hcut generalizing h with
  | eof =>
    cases hrun
    unfold Demux.outcome Demux.withBody
    rw [List.append_nil, hstart]
  | data t ios hcut ih =>
    obtain ⟨r, hpass, hrest⟩ := Option.bind_eq_some_iff.mp hrun
    unfold pass at hpass
    dsimp only at hpass
    rw [if_pos hstart] at hpass
    obtain ⟨a, happ, rfl⟩ := Option.map_eq_some_iff.mp hpass
    obtain ⟨b, -, rfl⟩ := Option.map_eq_some_iff.mp happ
    obtain ⟨out, hrun'⟩ := forward_ok hne hrest hok
    rw [ih rfl hrun']
    unfold Demux.outcome Demux.withBody
    simp only [List.append_assoc]
  | wait hcut ih => exact ih hstart hrun
  | connection out hcut ih =>
    have hrun : d.run _ (if h.fileStarted then { h with out := out } else h) = some (ret, h') := hrun
    rw [if_pos hstart] at hrun
    exact ih (h := { h with out := out }) hstart hrun

/-! ## The header -/

/-- What a run has come to, by what the reader of the header finds. -/
def Reached (d : Demuxer β) (h : Demux) (o : Outcome) : Result Byte (Option β) → Prop
  | .pending _ => o = h.outcome .finished
  | .refused => o = h.tooLarge.outcome .finished
  | .found none buf rest => o = (h.withBody (buf ++ rest.flatten)).outcome .finished
  | .found (some v) buf rest => ∃ ret₀ h₀,
      d.start v { h with responseHeader := d.header (buf.take (d.size v)) } = some (ret₀, h₀) ∧
        o = if ret₀ = .notFinished then (h₀.withBody (buf.drop (d.size v) ++ rest.flatten)).outcome .finished
          else h₀.outcome ret₀

theorem Reached.of_header {o : Outcome} {r : Result Byte (Option β)} {w : Bytes}
    (hr : d.Reached { h with responseHeader := w } o r) : d.Reached h o r := by
  cases r with
  | pending buf => exact hr
  | refused => exact hr
  | found v buf rest =>
    cases v with
    | none => exact hr
    | some v => exact hr

theorem run_endOfHeader (hne : d.appendFailed ≠ .notFinished) (hcut : Cut s es) (ios : List Attempt) (v : β)
    (hrun : ((d.endOfHeader h ios v).bind fun r => if r.1 = .notFinished then d.run es r.2 else some r) = some (ret, h'))
    (hok : h'.failed = false) :
    d.Reached h (h'.outcome ret) (.found (some v) h.responseHeader (pieces es)) := by
  obtain ⟨r, hend, hrest⟩ := Option.bind_eq_some_iff.mp hrun
  obtain ⟨⟨ret₀, h₀⟩, hstart, hend⟩ := Option.bind_eq_some_iff.mp hend
  refine ⟨ret₀, h₀, hstart, ?_⟩
  dsimp only at hend
  by_cases hgo : ret₀ = .notFinished
  · rw [if_pos hgo, hcut.pieces]
    rw [if_neg (not_not_intro hgo)] at hend
    obtain ⟨a, happ, heq⟩ := Option.bind_eq_some_iff.mp hend
    cases heq
    unfold Demux.appendMem at happ
    split at happ
    · obtain ⟨b, -, rfl⟩ := Option.map_eq_some_iff.mp happ
      obtain ⟨out, hrun'⟩ := forward_ok hne hrest hok
      rw [run_body hne hcut rfl hrun' hok]
      unfold Demux.outcome Demux.withBody
      simp only [List.append_assoc]
    · rename_i hnil
      cases happ
      have hrun' : d.run es { h₀ with fileStarted := true } = some (ret, h') := hrest
      rw [run_body hne hcut rfl hrun' hok]
      have hz : h.responseHeader.drop (d.size v) = [] := List.eq_nil_of_length_eq_zero (by omega)
      rw [hz]
      rfl
  · rw [if_neg hgo]
    rw [if_pos hgo] at hend
    cases hend
    rw [if_neg hgo] at hrest
    cases hrest
    rfl

/-- **Before the end of the header, the passes are the reader of the header.** -/
theorem run_head (hne : d.appendFailed ≠ .notFinished) (hcut : Cut s es)
    (hstart : h.fileStarted = false) (hrun : d.run es h = some (ret, h')) (hok : h'.failed = false) :
    d.Reached h (h'.outcome ret) (accumulate d.scanner.scan maxHttpRequestHeader h.responseHeader (pieces es)) := by
  induction hcut generalizing h with
  | eof =>
    cases hrun
    rfl
  | wait hcut ih => exact ih hstart hrun
  | connection out hcut ih =>
    have hrun : d.run _ (if h.fileStarted then { h with out := out } else h) = some (ret, h') := hrun
    rw [hstart] at hrun
    exact ih hstart hrun
  | @data s es t ios hcut ih =>
    have hrun : (d.pass h (.data t ios)).bind (fun r => if r.1 = .notFinished then d.run es r.2 else some r) =
      some (ret, h') := hrun
    have hnot : ¬ h.fileStarted = true := by
      rw [hstart]
      nofun
    unfold pass at hrun
    dsimp only at hrun
    rw [if_neg hnot] at hrun
    show d.Reached h _ (accumulate _ _ _ (t :: pieces es))
    unfold accumulate
    cases hscan : d.scanner.scan (h.responseHeader ++ t) with
    | none =>
      rw [hscan] at hrun
      dsimp only at hrun ⊢
      by_cases hlong : maxHttpRequestHeader < (h.responseHeader ++ t).length
      · rw [if_pos hlong] at hrun ⊢
        cases hrun
        show _ = h.tooLarge.outcome .finished
        rfl
      · rw [if_neg hlong] at hrun ⊢
        exact Reached.of_header (ih (h := { h with responseHeader := h.responseHeader ++ t }) hstart hrun)
    | some v =>
      rw [hscan] at hrun
      dsimp only at hrun ⊢
      cases v with
      | none =>
        dsimp only at hrun
        obtain ⟨r, hpass, hrest⟩ := Option.bind_eq_some_iff.mp hrun
        obtain ⟨a, happ, rfl⟩ := Option.map_eq_some_iff.mp hpass
        obtain ⟨b, -, rfl⟩ := Option.map_eq_some_iff.mp happ
        obtain ⟨out, hrun'⟩ := forward_ok hne hrest hok
        show _ = _
        rw [run_body hne hcut rfl hrun' hok, hcut.pieces]
        unfold Demux.outcome Demux.withBody
        simp only [List.append_assoc]
      | some v => exact Reached.of_header (run_endOfHeader hne hcut ios v hrun hok)

/-! ## The outcome -/

/-- **The outcome of every run**: the response is the one of its bytes, unless its header is refused. -/
theorem run_outcome (hne : d.appendFailed ≠ .notFinished) (hcut : Cut s es)
    (hfresh : h.Fresh) (hrun : d.run es h = some (ret, h')) (hok : h'.failed = false) :
    (Overrun d.scanner.scan maxHttpRequestHeader [] (pieces es) ∧ h'.outcome ret = h.tooLarge.outcome .finished) ∨
    (¬ Overrun d.scanner.scan maxHttpRequestHeader [] (pieces es) ∧ d.reference h s = some (h'.outcome ret)) := by
  have hreached := run_head hne hcut hfresh.fileStarted hrun hok
  rw [hfresh.responseHeader] at hreached
  have hrefused := accumulate_refused_iff maxHttpRequestHeader d.scanner.lasting [] (pieces es)
  cases hacc : accumulate d.scanner.scan maxHttpRequestHeader [] (pieces es) with
  | refused =>
    rw [hacc] at hreached
    exact Or.inl ⟨hrefused.mp hacc, hreached⟩
  | pending buf =>
    rw [hacc] at hreached
    refine Or.inr ⟨fun ho => ?_, ?_⟩
    · rw [hrefused.mpr ho] at hacc
      cases hacc
    · obtain ⟨rfl, hscan⟩ := accumulate_pending d.scan_nil hacc
      rw [List.nil_append, hcut.pieces] at hscan
      unfold reference
      rw [hscan]
      exact congrArg some hreached.symm
  | found v buf rest =>
    rw [hacc] at hreached
    refine Or.inr ⟨fun ho => ?_, ?_⟩
    · rw [hrefused.mpr ho] at hacc
      cases hacc
    · have hscan := accumulate_found d.scanner hacc
      obtain ⟨hbuf, heq, -⟩ := accumulate_arrival hacc
      rw [List.nil_append, hcut.pieces] at hscan heq
      unfold reference
      rw [hscan]
      cases v with
      | none =>
        rw [← heq]
        exact congrArg some hreached.symm
      | some v =>
        obtain ⟨ret₀, h₀, hstart, ho⟩ := hreached
        have hle := d.size_le hbuf
        dsimp only
        rw [← heq, List.take_append_of_le_length hle, List.drop_append_of_le_length hle, hstart, ho]
        rfl

theorem reference_ne (hfresh : h.Fresh) {o : Outcome} (href : d.reference h s = some o) :
    o ≠ h.tooLarge.outcome .finished := by
  rintro rfl
  unfold reference at href
  split at href
  · have := congrArg Outcome.direct (Option.some.inj href)
    exact absurd (this.symm.trans hfresh.direct) nofun
  · have := congrArg Outcome.fileStarted (Option.some.inj href)
    exact absurd (this.trans hfresh.fileStarted) nofun
  · obtain ⟨⟨ret₀, h₀⟩, hstart, heq⟩ := Option.map_eq_some_iff.mp href
    dsimp only at heq
    split at heq
    · have := congrArg Outcome.fileStarted heq
      exact absurd (this.trans hfresh.fileStarted) nofun
    · obtain rfl : ret₀ = .finished := congrArg Outcome.ret heq
      rcases d.start_ends hstart with hs | hs
      · have := congrArg Outcome.fileStarted heq
        exact absurd (hs.symm.trans (this.trans hfresh.fileStarted)) nofun
      · exact hs (congrArg (fun o => o.reply.httpStatus) heq)

/-- **Two ways of reading the same bytes have the same outcome, if and only if both are refused or none is.** -/
theorem same_outcome_iff (hne : d.appendFailed ≠ .notFinished) (hfresh : h.Fresh) {es' : List Event}
    (hcut : Cut s es) (hcut' : Cut s es') {ret' : Ret} (hrun : d.run es h = some (ret, h₁))
    (hrun' : d.run es' h = some (ret', h')) (hok : h₁.failed = false) (hok' : h'.failed = false) :
    h₁.outcome ret = h'.outcome ret' ↔ (Overrun d.scanner.scan maxHttpRequestHeader [] (pieces es) ↔
      Overrun d.scanner.scan maxHttpRequestHeader [] (pieces es')) := by
  rcases run_outcome hne hcut hfresh hrun hok with ⟨ho, heq⟩ | ⟨ho, href⟩ <;>
    rcases run_outcome hne hcut' hfresh hrun' hok' with ⟨ho', heq'⟩ | ⟨ho', href'⟩
  · exact iff_of_true (heq.trans heq'.symm) (iff_of_true ho ho')
  · refine iff_of_false (fun h => ?_) fun h => ho' (h.mp ho)
    exact reference_ne hfresh href' (h.symm.trans heq)
  · refine iff_of_false (fun h => ?_) fun h => ho (h.mpr ho')
    exact reference_ne hfresh href (h.trans heq')
  · refine iff_of_true ?_ (iff_of_false ho ho')
    exact Option.some.inj (href.symm.trans href')

end Demuxer

/-- The header is refused: some read ends where more than the limit has been read and the header is not complete. -/
abbrev HeaderOverrun {β : Type} (d : Demuxer β) (es : List Event) : Prop :=
  Overrun d.scanner.scan maxHttpRequestHeader [] (pieces es)

/-- **Two ways of reading the output of a CGI or SCGI program come to the same response, if and only if the header is
refused in both or in none.** -/
theorem same_response_iff (x : Xsendfile) (h : Demux) (hfresh : h.Fresh) (s : Bytes) (es es' : List Event)
    (hcut : Cut s es) (hcut' : Cut s es') :
    (∀ ret h₁ ret' h₂, (cgi x).run es h = some (ret, h₁) → (cgi x).run es' h = some (ret', h₂) →
      h₁.failed = false → h₂.failed = false →
      (h₁.outcome ret = h₂.outcome ret' ↔ (HeaderOverrun (cgi x) es ↔ HeaderOverrun (cgi x) es'))) ∧
    (∀ ret h₁ ret' h₂, (scgi x).run es h = some (ret, h₁) → (scgi x).run es' h = some (ret', h₂) →
      h₁.failed = false → h₂.failed = false →
      (h₁.outcome ret = h₂.outcome ret' ↔ (HeaderOverrun (scgi x) es ↔ HeaderOverrun (scgi x) es'))) := by
  constructor
  · intro ret h₁ ret' h₂ hrun hrun' hok hok'
    have hne : Ret.error ≠ .notFinished := by decide
    exact Demuxer.same_outcome_iff hne hfresh hcut hcut' hrun hrun' hok hok'
  · intro ret h₁ ret' h₂ hrun hrun' hok hok'
    have hne : Ret.finished ≠ .notFinished := by decide
    exact Demuxer.same_outcome_iff hne hfresh hcut hcut' hrun hrun' hok hok'

/-- A connection whose request has no body. -/
def sampleDemux : Demux where
  responseHeader := []
  fileStarted := false
  reply := .init
  direct := false
  out := Response.sampleResponse
  request := ⟨ascii "/a.cgi", some .get, 0, .init none 1024, 0⟩
  forwarded := []
  failed := false

/-- A header that is read in two pieces, and with the body at once. -/
def sampleCuts : List Event × List Event :=
  ([.data (ascii "A: b\r") [], .wait, .data (ascii "\n\nhi") [], .eof], [.data (ascii "A: b\r\n\nhi") [], .eof])

theorem same_response_iff_sample :
    (∀ ret h₁ ret' h₂, (cgi none).run sampleCuts.1 sampleDemux = some (ret, h₁) →
      (cgi none).run sampleCuts.2 sampleDemux = some (ret', h₂) → h₁.failed = false → h₂.failed = false →
      (h₁.outcome ret = h₂.outcome ret' ↔
        (HeaderOverrun (cgi none) sampleCuts.1 ↔ HeaderOverrun (cgi none) sampleCuts.2))) ∧
    (∀ ret h₁ ret' h₂, (scgi none).run sampleCuts.1 sampleDemux = some (ret, h₁) →
      (scgi none).run sampleCuts.2 sampleDemux = some (ret', h₂) → h₁.failed = false → h₂.failed = false →
      (h₁.outcome ret = h₂.outcome ret' ↔
        (HeaderOverrun (scgi none) sampleCuts.1 ↔ HeaderOverrun (scgi none) sampleCuts.2))) :=
  same_response_iff none sampleDemux ⟨rfl, rfl, rfl⟩ (ascii "A: b\r\n\nhi") sampleCuts.1 sampleCuts.2
    (.data (ascii "A: b\r") [] (.wait (.data (ascii "\n\nhi") [] .eof))) (.data (ascii "A: b\r\n\nhi") [] .eof)

example : ((cgi none).run sampleCuts.1 sampleDemux).map (fun r => (r.2.reply.headers.map DataString.value, r.2.forwarded)) =
    some ([ascii "b"], ascii "hi") := by decide

/-! ## A header that is too large -/

def letters (n : Nat) : Bytes := List.replicate n (chr 'a')

theorem letters_add (m n : Nat) : letters (m + n) = letters m ++ letters n := List.replicate_add m n _

theorem cgiScanFrom_letters (lastEol i : Nat) (last : Byte) (n : Nat) (t : Bytes) :
    cgiScanFrom true lastEol i last (letters n ++ t) = cgiScanFrom true lastEol (i + n) (if n = 0 then last else chr 'a') t := by
  induction n generalizing i last with
  | zero => rfl
  | succ n ih =>
    have hne : chr 'a' ≠ chr ':' ∧ chr 'a' ≠ chr '\n' := by decide
    show cgiScanFrom true lastEol i last (chr 'a' :: (letters n ++ t)) = _
    rw [cgiScanFrom, if_neg hne.1, if_neg hne.2, ih, if_neg (Nat.succ_ne_zero n)]
    congr 1
    · omega
    · split <;> rfl

theorem cgiScan_letters (n : Nat) (t : Bytes) :
    cgiScan (ascii "A:" ++ (letters n ++ t)) =
      (cgiScanFrom true 0 (n + 2) (if n = 0 then chr ':' else chr 'a') t).map fun r => if r.1 then some r.2 else none := by
  have hcons : ascii "A:" ++ (letters n ++ t) = chr 'A' :: chr ':' :: (letters n ++ t) := rfl
  have hne : chr 'A' ≠ chr ':' ∧ chr 'A' ≠ chr '\n' := by decide
  have hnph : isNph (chr 'A' :: chr ':' :: (letters n ++ t)) = false := rfl
  unfold cgiScan
  rw [hcons, hnph, cgiScanFrom, if_neg hne.1, if_neg hne.2, cgiScanFrom, if_pos rfl, cgiScanFrom_letters,
    show 0 + 1 + 1 + n = n + 2 by omega]

/-- Reads of `m` letters each, inside the header. -/
theorem run_letters (m k : Nat) {j : Nat} (hle : j + k * m + 2 ≤ maxHttpRequestHeader) (es : List Event) {h : Demux}
    (hstart : h.fileStarted = false) (hhead : h.responseHeader = ascii "A:" ++ letters j) :
    (cgi none).run (List.replicate k (.data (letters m) []) ++ es) h =
      (cgi none).run es { h with responseHeader := ascii "A:" ++ letters (j + k * m) } := by
  induction k generalizing j h with
  | zero =>
    rw [Nat.zero_mul, Nat.add_zero, ← hhead]
    rfl
  | succ k ih =>
    rw [Nat.succ_mul] at hle
    have hbuf : h.responseHeader ++ letters m = ascii "A:" ++ letters (j + m) := by
      rw [hhead, letters_add, List.append_assoc]
    have hscan : (cgi none).scanner.scan (ascii "A:" ++ letters (j + m)) = none := by
      have := cgiScan_letters (j + m) []
      rw [List.append_nil] at this
      exact this
    have hlen : ¬ (ascii "A:" ++ letters (j + m)).length > maxHttpRequestHeader := by
      rw [List.length_append, letters, List.length_replicate]
      have : (ascii "A:").length = 2 := rfl
      omega
    have hpass : (cgi none).pass h (.data (letters m) []) =
        some (.notFinished, { h with responseHeader := ascii "A:" ++ letters (j + m) }) := by
      unfold Demuxer.pass
      dsimp only
      rw [if_neg (by rw [hstart]; nofun), hbuf, hscan]
      dsimp only
      rw [if_neg hlen]
    have hrun : (cgi none).run (List.replicate (k + 1) (.data (letters m) []) ++ es) h =
        (cgi none).run (List.replicate k (.data (letters m) []) ++ es)
          { h with responseHeader := ascii "A:" ++ letters (j + m) } := by
      rw [List.replicate_succ, List.cons_append, Demuxer.run, hpass]
      rfl
    have hrest := ih (j := j + m) (by omega) (h := { h with responseHeader := ascii "A:" ++ letters (j + m) }) hstart rfl
    rw [hrun, hrest, show j + m + k * m = j + (k + 1) * m by rw [Nat.succ_mul]; omega]

/-- A header with `k * m` letters, which are read `m` at a time, and what is read behind them. -/
def longReads (m k : Nat) (es : List Event) : List Event :=
  .data (ascii "A:") [] :: (List.replicate k (.data (letters m) []) ++ es)

def longDemux (n : Nat) : Demux := { sampleDemux with responseHeader := ascii "A:" ++ letters n }

theorem run_longReads {m k : Nat} (hle : k * m + 2 ≤ maxHttpRequestHeader) (es : List Event) :
    (cgi none).run (longReads m k es) sampleDemux = (cgi none).run es (longDemux (k * m)) := by
  have hpass : (cgi none).pass sampleDemux (.data (ascii "A:") []) = some (.notFinished, longDemux 0) := by
    have hscan : (cgi none).scanner.scan (sampleDemux.responseHeader ++ ascii "A:") = none := by decide
    unfold Demuxer.pass
    dsimp only
    rw [if_neg (by decide), hscan]
    rfl
  have hletters := run_letters m k (j := 0) (by omega) es (h := longDemux 0) rfl rfl
  rw [Nat.zero_add] at hletters
  rw [longReads, Demuxer.run, hpass]
  exact hletters

theorem longReads_cut (m k : Nat) {s : Bytes} {es : List Event} (h : Cut s es) :
    Cut (ascii "A:" ++ (letters (k * m) ++ s)) (longReads m k es) := by
  have hcut : ∀ k, Cut (letters (k * m) ++ s) (List.replicate k (.data (letters m) []) ++ es) := by
    intro k
    induction k with
    | zero =>
      rw [Nat.zero_mul]
      exact h
    | succ k ih =>
      have heq : letters ((k + 1) * m) ++ s = letters m ++ (letters (k * m) ++ s) := by
        rw [← List.append_assoc, ← letters_add, Nat.succ_mul, Nat.add_comm]
      rw [heq]
      exact .data _ [] ih
  exact .data (ascii "A:") [] (hcut k)

/-- The reads behind them: `l` letters, and the end of the header apart or along with them. -/
def apart (l : Nat) : List Event := [.data (letters l) [], .data (ascii "\n\n") [], .eof]

def along (l : Nat) : List Event := [.data (letters l ++ ascii "\n\n") [], .eof]

theorem apart_cut (l : Nat) : Cut (letters l ++ ascii "\n\n") (apart l) :=
  .data (letters l) [] (.data (ascii "\n\n") [] .eof)

theorem along_cut (l : Nat) : Cut (letters l ++ ascii "\n\n") (along l) := by
  have h : Cut (letters l ++ ascii "\n\n" ++ []) (along l) := .data _ [] .eof
  rw [List.append_nil] at h
  exact h

theorem longHeader_append (n l : Nat) (t : Bytes) :
    (longDemux n).responseHeader ++ (letters l ++ t) = ascii "A:" ++ (letters (n + l) ++ t) := by
  show ascii "A:" ++ letters n ++ (letters l ++ t) = _
  rw [letters_add]
  simp only [List.append_assoc]

theorem run_apart {n l : Nat} (hlong : maxHttpRequestHeader < n + l + 2) :
    ∃ h, (cgi none).run (apart l) (longDemux n) = some (.finished, h) ∧ h.failed = false ∧
      h.outcome .finished = sampleDemux.tooLarge.outcome .finished := by
  have hbuf : (longDemux n).responseHeader ++ letters l = ascii "A:" ++ (letters (n + l) ++ []) := by
    rw [← longHeader_append, List.append_nil]
  have hscan : (cgi none).scanner.scan ((longDemux n).responseHeader ++ letters l) = none := by
    rw [hbuf]
    exact cgiScan_letters (n + l) []
  have hlen : ((longDemux n).responseHeader ++ letters l).length > maxHttpRequestHeader := by
    rw [hbuf, List.append_nil, List.length_append, letters, List.length_replicate]
    have : (ascii "A:").length = 2 := rfl
    omega
  have hpass : (cgi none).pass (longDemux n) (.data (letters l) []) = some (.finished,
      { longDemux n with responseHeader := (longDemux n).responseHeader ++ letters l }.tooLarge) := by
    unfold Demuxer.pass
    dsimp only
    rw [if_neg (show ¬ (longDemux n).fileStarted = true by nofun), hscan]
    dsimp only
    rw [if_pos hlen]
  refine ⟨{ longDemux n with responseHeader := (longDemux n).responseHeader ++ letters l }.tooLarge, ?_, rfl, rfl⟩
  rw [apart, Demuxer.run, hpass]
  rfl

theorem localRedirect_total {h : Demux} (hbody : h.request.contentLength = 0) (location : Bytes) :
    ∃ ret h', h.localRedirect location = some (ret, h') ∧ h'.failed = h.failed := by
  unfold Demux.localRedirect
  dsimp only
  split
  · exact ⟨_, _, rfl, rfl⟩
  · unfold Demux.dropBody
    dsimp only
    rw [if_neg (not_not_intro hbody)]
    exact ⟨_, _, rfl, rfl⟩

theorem cgiStart_total {h : Demux} (hbody : h.request.contentLength = 0) :
    ∃ ret h', cgiStart none h = some (ret, h') ∧ h'.failed = h.failed := by
  unfold cgiStart
  dsimp only
  split
  · exact localRedirect_total (h := { h with reply := cgiResponseParse h.reply h.responseHeader }) hbody _
  · exact ⟨_, _, rfl, rfl⟩

/-- The end of the header behind `n` letters. -/
theorem cgiScan_headerEnd (n : Nat) : cgiScan (ascii "A:" ++ (letters n ++ ascii "\n\n")) = some (some (n + 4)) := by
  have hcolon : chr '\n' ≠ chr ':' := by decide
  have hend : ascii "\n\n" = [chr '\n', chr '\n'] := rfl
  rw [cgiScan_letters, hend, cgiScanFrom, if_neg hcolon, if_pos rfl, if_neg (by decide), if_neg (by simp), cgiScanFrom,
    if_neg hcolon, if_pos rfl, if_neg (by decide), if_pos (by omega)]
  rfl

theorem run_along (n l : Nat) : ∃ ret h, (cgi none).run (along l) (longDemux n) = some (ret, h) ∧ h.failed = false ∧
    h.outcome ret ≠ sampleDemux.tooLarge.outcome .finished := by
  have hbuf : (longDemux n).responseHeader ++ (letters l ++ ascii "\n\n") =
      ascii "A:" ++ (letters (n + l) ++ ascii "\n\n") := longHeader_append n l _
  have hscan : (cgi none).scanner.scan ((longDemux n).responseHeader ++ (letters l ++ ascii "\n\n")) =
      some (some (n + l + 4)) := by
    rw [hbuf]
    exact cgiScan_headerEnd (n + l)
  have hbody : ((longDemux n).responseHeader ++ (letters l ++ ascii "\n\n")).drop (n + l + 4) = [] := by
    apply List.drop_of_length_le
    rw [hbuf, List.length_append, List.length_append, letters, List.length_replicate]
    have : (ascii "A:").length = 2 ∧ (ascii "\n\n").length = 2 := ⟨rfl, rfl⟩
    omega
  have hpass : ∀ h, h = { longDemux n with
        responseHeader := (longDemux n).responseHeader ++ (letters l ++ ascii "\n\n") } →
      (cgi none).pass (longDemux n) (.data (letters l ++ ascii "\n\n") []) =
        (cgi none).endOfHeader h [] (n + l + 4) := by
    rintro h rfl
    unfold Demuxer.pass
    dsimp only
    rw [if_neg (show ¬ (longDemux n).fileStarted = true by nofun), hscan]
  rw [along, Demuxer.run, hpass _ rfl]
  unfold Demuxer.endOfHeader
  dsimp only
  obtain ⟨ret, h, hstart, hok⟩ := cgiStart_total (h := { longDemux n with
    responseHeader := (cgi none).header (((longDemux n).responseHeader ++ (letters l ++ ascii "\n\n")).take
      (n + l + 4)) }) rfl
  have hstart' : (cgi none).start (n + l + 4) { longDemux n with
    responseHeader := (cgi none).header (((longDemux n).responseHeader ++ (letters l ++ ascii "\n\n")).take
      (n + l + 4)) } = some (ret, h) := hstart
  have hsize : (cgi none).size (n + l + 4) = n + l + 4 := rfl
  rw [hsize, hbody, hstart']
  cases ret with
  | notFinished =>
    refine ⟨.finished, { h with fileStarted := true }, rfl, hok, fun heq => ?_⟩
    exact absurd (congrArg Outcome.fileStarted heq) nofun
  | finished =>
    refine ⟨.finished, h, rfl, hok, fun heq => ?_⟩
    rcases (cgi none).start_ends hstart' with hs | hs
    · exact absurd (hs.symm.trans (congrArg Outcome.fileStarted heq)) nofun
    · exact hs (congrArg (fun o => o.reply.httpStatus) heq)
  | comeback => exact ⟨.comeback, h, rfl, hok, fun heq => absurd (congrArg Outcome.ret heq) nofun⟩
  | error => exact ⟨.error, h, rfl, hok, fun heq => absurd (congrArg Outcome.ret heq) nofun⟩

def longStream (n l : Nat) : Bytes := ascii "A:" ++ (letters n ++ (letters l ++ ascii "\n\n"))

theorem longReads_differ {m k l : Nat} (hle : k * m + 2 ≤ maxHttpRequestHeader)
    (hlong : maxHttpRequestHeader < k * m + l + 2) :
    Cut (longStream (k * m) l) (longReads m k (along l)) ∧ Cut (longStream (k * m) l) (longReads m k (apart l)) ∧
      ∃ ret h₁ ret' h₂, (cgi none).run (longReads m k (along l)) sampleDemux = some (ret, h₁) ∧
        (cgi none).run (longReads m k (apart l)) sampleDemux = some (ret', h₂) ∧
        h₁.failed = false ∧ h₂.failed = false ∧ h₁.outcome ret ≠ h₂.outcome ret' := by
  obtain ⟨ret, h₁, hrun, hok, hne⟩ := run_along (k * m) l
  obtain ⟨h₂, hrun', hok', heq⟩ := run_apart hlong
  refine ⟨longReads_cut m k (along_cut l), longReads_cut m k (apart_cut l), ret, h₁, .finished, h₂, ?_, ?_, hok, hok', ?_⟩
  · rw [run_longReads hle, hrun]
  · rw [run_longReads hle, hrun']
  · rw [heq]
    exact hne

/-- **A header of 33000 letters, in reads of 4000: the last read has the end of the header, or not.** -/
theorem long_header_differs :
    Cut (longStream (8 * 4000) 1000) (longReads 4000 8 (along 1000)) ∧
      Cut (longStream (8 * 4000) 1000) (longReads 4000 8 (apart 1000)) ∧
      ∃ ret h₁ ret' h₂, (cgi none).run (longReads 4000 8 (along 1000)) sampleDemux = some (ret, h₁) ∧
        (cgi none).run (longReads 4000 8 (apart 1000)) sampleDemux = some (ret', h₂) ∧
        h₁.failed = false ∧ h₂.failed = false ∧ h₁.outcome ret ≠ h₂.outcome ret' :=
  longReads_differ (by decide) (by decide)

end Backend
end Lighttpd
