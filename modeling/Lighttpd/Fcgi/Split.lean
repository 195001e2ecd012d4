import Lighttpd.Fcgi.Demux
import Lighttpd.Http.ChunkStream

/-!
# Header and body of a FastCGI response

The contents of the records of type `FCGI_STDOUT` are one stream, of which everything up to the first blank line is the
header (`blankEnd`). `fcgi_demux_response` looks for `\r\n\r\n` in all that has accumulated before it looks for `\n\n`,
and it looks at the limit for the header only when it has found neither.

- `Handled.run`: a run handles the records of what is read, whatever the chunks and reads are;
- `Handled.ended`: the header and the body of the records that are handled;
- `split_iff`: exactly when the response is split at its first blank line.
-/

namespace Lighttpd
namespace Fcgi
open Request Backend Occurrence Splitter FcgiRecord

/-! ## The first blank line -/

/-- **The length of a response up to its first blank line.** -/
def blankEnd (s : Bytes) : Option Nat :=
  match firstEnd crlfEnd s, firstEnd lfEnd s with
  | some m, some n => some (min m n)
  | some m, none => some m
  | none, r => r

variable {s : Bytes} {n : Nat} {ios : List Attempt}

theorem blankEnd_stable (h : blankEnd s = some n) (t : Bytes) : blankEnd (s ++ t) = some n := by
  unfold blankEnd at h ⊢
  cases hm : firstEnd crlfEnd s with
  | some m =>
    have hle := (firstEnd_some hm).2
    rw [firstEnd_append hm]
    cases hk : firstEnd lfEnd s with
    | some k =>
      rw [hm, hk] at h
      rw [firstEnd_append hk]
      exact h
    | none =>
      rw [hm, hk] at h
      cases h
      cases hk' : firstEnd lfEnd (s ++ t) with
      | none => rfl
      | some k =>
        have := firstEnd_append_none hk hk'
        dsimp only
        rw [Nat.min_eq_left (by omega)]
  | none =>
    rw [hm] at h
    have hle := (firstEnd_some h).2
    rw [firstEnd_append h]
    cases hm' : firstEnd crlfEnd (s ++ t) with
    | none => rfl
    | some m =>
      have := firstEnd_append_none hm hm'
      dsimp only
      rw [Nat.min_eq_right (by omega)]

theorem blankEnd_le (h : blankEnd s = some n) : n ≤ s.length := by
  unfold blankEnd at h
  cases hm : firstEnd crlfEnd s with
  | some m =>
    have hle := (firstEnd_some hm).2
    rw [hm] at h
    cases hk : firstEnd lfEnd s with
    | some k =>
      rw [hk] at h
      cases h
      omega
    | none =>
      rw [hk] at h
      cases h
      exact hle
  | none =>
    rw [hm] at h
    exact (firstEnd_some h).2

def blankScanner : Scanner Byte Nat := ⟨blankEnd, blankEnd_stable⟩

def Plain (s : Bytes) : Prop :=
  ∀ p q, EndsFirst crlfEnd s p → EndsFirst lfEnd s q → p.length ≤ q.length

theorem searchEnd_eq_none_iff (s : Bytes) : searchEnd s = none ↔ blankEnd s = none := by
  unfold searchEnd blankEnd
  cases firstEnd crlfEnd s with
  | some m => cases firstEnd lfEnd s <;> simp
  | none => exact Iff.rfl

theorem searchEnd_le (h : searchEnd s = some n) : n ≤ s.length := by
  unfold searchEnd at h
  cases hm : firstEnd crlfEnd s with
  | some m =>
    rw [hm] at h
    cases h
    exact (firstEnd_some hm).2
  | none =>
    rw [hm] at h
    exact (firstEnd_some h).2

/-- **The search of the source finds the first blank line, unless `\r\n\r\n` stands behind `\n\n`.** -/
theorem searchEnd_eq_iff (h : blankEnd s = some n) : searchEnd s = some n ↔ Plain s := by
  unfold searchEnd
  unfold blankEnd at h
  cases hm : firstEnd crlfEnd s with
  | none =>
    rw [hm] at h
    refine iff_of_true h fun p q hp _ => ?_
    exact absurd hp (firstEnd_none hm p)
  | some m =>
    obtain ⟨hp, hple⟩ := firstEnd_some hm
    rw [hm] at h
    cases hk : firstEnd lfEnd s with
    | none =>
      rw [hk] at h
      refine iff_of_true h fun p q _ hq => ?_
      exact absurd hq (firstEnd_none hk q)
    | some k =>
      obtain ⟨hq, hqle⟩ := firstEnd_some hk
      rw [hk] at h
      obtain rfl : min m k = n := Option.some.inj h
      constructor
      · intro heq
        have hmin : m = min m k := Option.some.inj heq
        intro p q hp' hq'
        rw [hp'.unique hp, hq'.unique hq, List.length_take, List.length_take]
        omega
      · intro hplain
        have := hplain _ _ hp hq
        rw [List.length_take, List.length_take] at this
        dsimp only
        congr 1
        omega

theorem searchEnd_lasting : Lasting searchEnd := by
  intro s t h
  rw [searchEnd_eq_none_iff] at h ⊢
  exact blankScanner.lasting s t h

/-! ## Records -/

/-- **The contents of the records of type `FCGI_STDOUT`**, up to the end of the request. Records without content and
padding are passed over. -/
def stdoutPieces : List Record → List Bytes
  | [] => []
  | r :: rs =>
    if r.type.toNat = fcgiStdout then
      if r.content.length + r.padding.length = 0 then stdoutPieces rs else r.content :: stdoutPieces rs
    else if r.type.toNat = fcgiEndRequest then []
    else stdoutPieces rs

/-- **The records `rs` are handled**, up to the one that ends the response when the result is `true`. In between, other
parts of the server read more into `hctx->rb` and write what has been forwarded. -/
inductive Handled (host : Host) : Handler → List Record → Bool → Handler → Prop
  | nil (h : Handler) : Handled host h [] false h
  | stop {h h' : Handler} {r : Record} {packet : Packet} (rs : List Record) (ios : List Attempt) (his : packet.Is r)
      (hp : h.packet host ios packet = some (true, h')) : Handled host h (r :: rs) true h'
  | next {h h₁ h' : Handler} {r : Record} {rs : List Record} {packet : Packet} {fin : Bool} (ios : List Attempt)
      (his : packet.Is r) (hp : h.packet host ios packet = some (false, h₁)) (ht : Handled host h₁ rs fin h') :
      Handled host h (r :: rs) fin h'
  | rb {h h' : Handler} {rs : List Record} {fin : Bool} (rb : Chunkqueue)
      (ht : Handled host { h with rb := rb } rs fin h') : Handled host h rs fin h'
  | out {h h' : Handler} {rs : List Record} {fin : Bool} (out : Response) (hs : h.fileStarted = true)
      (ht : Handled host { h with out := out } rs fin h') : Handled host h rs fin h'

variable {host : Host} {h h₁ h' : Handler} {rs rs' : List Record} {fin : Bool}

theorem Handled.append (ht : Handled host h rs false h₁) (ht' : Handled host h₁ rs' fin h') :
    Handled host h (rs ++ rs') fin h' := by
  generalize hb : false = b at ht
  induction ht with
  | nil h => exact ht'
  | stop rs ios his hp => cases hb
  | next ios his hp ht ih => exact .next ios his hp (ih ht' hb)
  | rb rb ht ih => exact .rb rb (ih ht' hb)
  | out out hs ht ih => exact .out out hs (ih ht' hb)

theorem Handled.append_stop (ht : Handled host h rs true h') (rs' : List Record) :
    Handled host h (rs ++ rs') true h' := by
  generalize hb : true = b at ht
  induction ht with
  | nil h => cases hb
  | stop rs ios his hp => exact .stop _ ios his hp
  | next ios his hp ht ih => exact .next ios his hp (ih hb)
  | rb rb ht ih => exact .rb rb (ih hb)
  | out out hs ht ih => exact .out out hs (ih hb)

/-! ## What a packet does -/

theorem forward_rb (heq : h.forward ios s = some (fin, h')) : h'.rb = h.rb := by
  unfold Handler.forward at heq
  split at heq
  · obtain ⟨r, -, heq⟩ := Option.map_eq_some_iff.mp heq
    split at heq <;>
    · cases heq
      rfl
  · cases heq
    rfl

/-- The parser of the header leaves the queue and the body alone; when the response ends with it, no content is sent. -/
structure Begun (h : Handler) (r : Bool × Handler) : Prop where
  rb : r.2.rb = h.rb
  forwarded : r.2.forwarded = h.forwarded
  failed : r.2.failed = h.failed
  fileStarted : r.2.fileStarted = true
  sends : r.1 = true → r.2.sendContentBody = false

theorem parsedHeader_spec (h : Handler) :
    Begun h (h.parsedHeader host) ∧ (h.parsedHeader host).2.parsed = h.parsed := by
  unfold Handler.parsedHeader
  dsimp only
  generalize h.keepsContent host = send
  split
  · by_cases hsend : host.parse.xsendfileAllow = true ∧ send = true
    · rw [if_pos hsend]
      exact ⟨⟨rfl, rfl, rfl, rfl, fun _ => rfl⟩, rfl⟩
    · rw [if_neg hsend]
      exact ⟨⟨rfl, rfl, rfl, rfl, nofun⟩, rfl⟩
  · exact ⟨⟨rfl, rfl, rfl, rfl, nofun⟩, rfl⟩

theorem parseHeader_spec (h : Handler) (header : Bytes) :
    Begun h (h.parseHeader host header) ∧ (h.parseHeader host header).2.parsed = some header := by
  unfold Handler.parseHeader
  dsimp only
  split
  · split
    · exact ⟨⟨rfl, rfl, rfl, rfl, fun _ => rfl⟩, rfl⟩
    · exact ⟨⟨rfl, rfl, rfl, rfl, fun _ => rfl⟩, rfl⟩
  · obtain ⟨⟨hrb, hfor, hfail, hstart, hsend⟩, hparsed⟩ := @parsedHeader_spec host
      { h with
        responseHeader := header
        parsed := some header
        reply := (fcgiResponseParse host.parse h.sendContentBody h.reply h.out header).2.1
        out := (fcgiResponseParse host.parse h.sendContentBody h.reply h.out header).2.2 }
    exact ⟨⟨hrb, hfor, hfail, hstart, hsend⟩, hparsed⟩

def Handler.sendsContent (host : Host) (h : Handler) (header : Bytes) : Bool :=
  (h.parseHeader host header).2.sendContentBody

theorem parseHeader_congr (h : Handler) (rb : Chunkqueue) (b header : Bytes) :
    Handler.parseHeader host { h with rb := rb, responseHeader := b } header =
      ((h.parseHeader host header).1, { (h.parseHeader host header).2 with rb := rb }) := by
  unfold Handler.parseHeader
  dsimp only
  split
  · split <;> rfl
  · unfold Handler.parsedHeader
    dsimp only
    have hkeep : Handler.keepsContent host { h with
        rb := rb
        responseHeader := header
        parsed := some header
        reply := (fcgiResponseParse host.parse h.sendContentBody h.reply h.out header).2.1
        out := (fcgiResponseParse host.parse h.sendContentBody h.reply h.out header).2.2 } =
      Handler.keepsContent host { h with
        responseHeader := header
        parsed := some header
        reply := (fcgiResponseParse host.parse h.sendContentBody h.reply h.out header).2.1
        out := (fcgiResponseParse host.parse h.sendContentBody h.reply h.out header).2.2 } := rfl
    rw [hkeep]
    split
    · split <;> rfl
    · rfl

theorem packet_rb {packet : Packet} (heq : h.packet host ios packet = some (fin, h')) : h'.rb = h.rb := by
  unfold Handler.packet at heq
  split at heq
  · split at heq
    · cases heq
      rfl
    · unfold Handler.stdout at heq
      split at heq
      · exact forward_rb heq
      · dsimp only at heq
        split at heq
        · split at heq <;>
          · cases heq
            rfl
        · split at heq
          · obtain ⟨-, rfl⟩ := Prod.mk.inj (Option.some.inj heq)
            exact (parseHeader_spec _ _).1.rb
          · exact (forward_rb heq).trans (parseHeader_spec _ _).1.rb
  · split at heq <;>
    · cases heq
      rfl

/-! ## Reads and chunks -/

/-- The memory of the last chunk takes up the bytes that a read delivers. -/
theorem Ready.receive {rb rb₁ rb' : Chunkqueue} (hr : Ready rb) {size space : Nat}
    (hmem : rb.getMemory 0 size = some (rb₁, space)) (huse : rb₁.useMemory s = some rb') :
    Ready rb' ∧ Conn.stream rb'.chunks = Conn.stream rb.chunks ++ s := by
  have w : World := ⟨fun _ => none, fun _ => none⟩
  obtain ⟨rb₂, space₂, hmem₂, hm, -⟩ := Chunkqueue.getMemory_spec hr.wf 0 size
  obtain ⟨rfl, rfl⟩ := Prod.mk.inj (Option.some.inj (hmem.symm.trans hmem₂))
  have hall := Chunkqueue.getMemory_allMem hr.wf hr.mem hmem
  have hg := Chunkqueue.useMemory_grown hm.wf huse
  have hall' := Chunkqueue.useMemory_allMem hall huse
  have hw := hg.content w
  rw [hall'.content, hm.content, hr.mem.content] at hw
  exact ⟨⟨hg.wf, hall'⟩, hw⟩

/-- **The loop handles the records of the queue**, and leaves the beginning of the next one. -/
theorem Handled.packets {ios : Nat → List Attempt} {rest : Bytes} (hr : Ready h.rb)
    (hdec : Decodes (Conn.stream h.rb.chunks) rs rest) (hn : rs.length ≤ n)
    (heq : Handler.packets host ios n h = some (fin, h')) :
    Handled host h rs fin h' ∧ (fin = false → Ready h'.rb ∧ Conn.stream h'.rb.chunks = rest) := by
  generalize hs : Conn.stream h.rb.chunks = s at hdec
  induction hdec generalizing h n with
  | @rest s hnone =>
    have hget := getPacket_spec hr
    rw [hs, hnone] at hget
    dsimp only at hget
    cases n with
    | zero =>
      cases heq
      exact ⟨.nil _, fun _ => ⟨hr, hs⟩⟩
    | succ n =>
      unfold Handler.packets at heq
      rw [hget] at heq
      cases heq
      exact ⟨.nil h, fun _ => ⟨hr, hs⟩⟩
  | @record s t rest r rs hsome ht ih =>
    have hget := getPacket_spec hr
    rw [hs, hsome] at hget
    obtain ⟨packet, rb', hpacket, his, hrest, -, hready⟩ := hget
    cases n with
    | zero =>
      rw [List.length_cons] at hn
      omega
    | succ n =>
      unfold Handler.packets at heq
      rw [hpacket] at heq
      dsimp only [Option.bind_eq_bind, Option.bind_some] at heq
      obtain ⟨⟨fin₁, h₁⟩, hp, heq⟩ := Option.bind_eq_some_iff.mp heq
      have hrb : h₁.rb = rb' := packet_rb hp
      cases fin₁ with
      | true =>
        cases heq
        exact ⟨.rb rb' (.stop rs (ios n) his hp), nofun⟩
      | false =>
        obtain ⟨hh, hend⟩ := ih (h := h₁) (n := n) (by rw [hrb]; exact hready) (by rw [List.length_cons] at hn; omega)
          heq (by rw [hrb]; exact hrest)
        exact ⟨.rb rb' (.next (ios n) his hp hh), hend⟩

/-- What the reads of a run deliver. -/
def wire : List Event → Bytes
  | [] => []
  | .data _ s _ :: es => s ++ wire es
  | _ :: es => wire es

/-- No read fails, and the application does not close the connection. -/
def Delivers (es : List Event) : Prop := ∀ e ∈ es, match e with
  | .data _ s _ => s ≠ []
  | .failed => False
  | _ => True

/-- **A run handles the records of what is read**, whatever the chunks and the reads are. -/
theorem Handled.run {bufmin : Bool} {es : List Event} {ret : Backend.Ret} {rest : Bytes} (hdel : Delivers es)
    (hr : Ready h.rb) (hleft : decode (Conn.stream h.rb.chunks) = none)
    (hdec : Decodes (Conn.stream h.rb.chunks ++ wire es) rs rest)
    (heq : Fcgi.run host bufmin es h = some (ret, h')) : ∃ fin, Handled host h rs fin h' := by
  induction es generalizing h rs with
  | nil =>
    cases heq
    obtain ⟨rfl, -⟩ := hdec.unique (.rest (by rw [wire, List.append_nil]; exact hleft))
    exact ⟨false, .nil _⟩
  | cons e es ih =>
    have hdel' : Delivers es := fun e' he => hdel e' (List.mem_cons_of_mem e he)
    have hgo : ∀ {h₁ : Handler}, Ready h₁.rb → decode (Conn.stream h₁.rb.chunks) = none →
        Decodes (Conn.stream h₁.rb.chunks ++ wire es) rs rest → demuxResponse host bufmin h e = some (.notFinished, h₁) →
        ∃ fin, Handled host h₁ rs fin h' := by
      intro h₁ hr₁ hleft₁ hdec₁ hcall
      unfold Fcgi.run at heq
      rw [hcall] at heq
      exact ih hdel' hr₁ hleft₁ hdec₁ heq
    cases e with
    | wait => exact hgo hr hleft hdec rfl
    | failed => exact absurd (hdel .failed List.mem_cons_self) id
    | connection out =>
      by_cases hs : h.fileStarted = true
      · obtain ⟨fin, hh⟩ := @hgo { h with out := out } hr hleft hdec (by rw [demuxResponse, if_pos hs])
        exact ⟨fin, .out out hs hh⟩
      · exact hgo hr hleft hdec (by rw [demuxResponse, if_neg hs])
    | data toread s ios =>
      have hne : s ≠ [] := hdel (.data toread s ios) List.mem_cons_self
      unfold Fcgi.run at heq
      obtain ⟨⟨ret₁, h₁⟩, hcall, heq⟩ := Option.bind_eq_some_iff.mp heq
      unfold demuxResponse at hcall
      obtain ⟨cqlen, -, hcall⟩ := Option.bind_eq_some_iff.mp hcall
      obtain ⟨⟨rb₁, space⟩, hmem, hcall⟩ := Option.bind_eq_some_iff.mp hcall
      obtain ⟨rb', huse, hcall⟩ := Option.bind_eq_some_iff.mp hcall
      rw [if_neg hne] at hcall
      obtain ⟨⟨fin, h₂⟩, hpackets, hcall⟩ := Option.bind_eq_some_iff.mp hcall
      obtain ⟨hr', hstream⟩ := hr.receive hmem huse
      -- the records that are complete behind this read, and those of the rest of the stream
      obtain ⟨rs₁, rest₁, hdec₁⟩ := Decodes.exists_decodes (Conn.stream rb'.chunks)
      obtain ⟨rs₂, rest₂, hdec₂⟩ := Decodes.exists_decodes (rest₁ ++ wire es)
      have hall := hdec₁.append hdec₂
      have hwire : Conn.stream h.rb.chunks ++ wire (.data toread s ios :: es) = Conn.stream rb'.chunks ++ wire es := by
        rw [hstream, List.append_assoc]
        rfl
      rw [hwire] at hdec
      obtain ⟨rfl, rfl⟩ := hdec.unique hall
      have hlen := hdec₁.length_le
      obtain ⟨hh, hend⟩ := Handled.packets (h := { h with rb := rb' }) hr' hdec₁ (by omega) hpackets
      cases fin with
      | true =>
        cases hcall
        cases heq
        exact ⟨true, .rb rb' (hh.append_stop rs₂)⟩
      | false =>
        cases hcall
        obtain ⟨hr₂, hrest₂⟩ := hend rfl
        obtain ⟨fin, hh'⟩ := ih hdel' hr₂ (by rw [hrest₂]; exact hdec₁.decode_rest) (by rw [hrest₂]; exact hdec₂) heq
        exact ⟨fin, .rb rb' (hh.append hh')⟩

/-! ## The header and the body -/

/-- The content `s` has been passed on, if content is sent. -/
structure Forwarded (h h₁ : Handler) (s : Bytes) : Prop where
  fileStarted : h₁.fileStarted = h.fileStarted
  sendContentBody : h₁.sendContentBody = h.sendContentBody
  parsed : h₁.parsed = h.parsed
  forwarded : h₁.forwarded = h.forwarded ++ if h.sendContentBody then s else []

theorem forward_spec (heq : h.forward ios s = some (fin, h₁)) :
    (fin = true ∧ h₁.failed = true) ∨ (fin = false ∧ Forwarded h h₁ s) := by
  unfold Handler.forward at heq
  split at heq
  · rename_i hsend
    obtain ⟨r, -, heq⟩ := Option.map_eq_some_iff.mp heq
    split at heq
    · cases heq
      exact Or.inr ⟨rfl, rfl, rfl, rfl, by rw [if_pos hsend.1]⟩
    · cases heq
      exact Or.inl ⟨rfl, rfl⟩
  · rename_i hsend
    cases heq
    refine Or.inr ⟨rfl, rfl, rfl, rfl, ?_⟩
    by_cases hb : h.sendContentBody = true
    · have hnil : s = [] := by
        by_contra hne
        exact hsend ⟨hb, hne⟩
      rw [if_pos hb, hnil, List.append_nil]
    · rw [if_neg hb, List.append_nil]

theorem packet_cases {packet : Packet} {r : Record} (his : packet.Is r)
    (heq : h.packet host ios packet = some (fin, h₁)) (rs : List Record) :
    (stdoutPieces (r :: rs) = r.content :: stdoutPieces rs ∧ h.stdout host ios r.content = some (fin, h₁)) ∨
    (stdoutPieces (r :: rs) = stdoutPieces rs ∧ fin = false ∧ h₁ = h) ∨
    (stdoutPieces (r :: rs) = [] ∧ fin = true ∧ h₁ = h) := by
  unfold Handler.packet at heq
  rw [his.type, his.len, his.content] at heq
  have hcons : stdoutPieces (r :: rs) =
      if r.type.toNat = fcgiStdout then
        if r.content.length + r.padding.length = 0 then stdoutPieces rs else r.content :: stdoutPieces rs
      else if r.type.toNat = fcgiEndRequest then []
      else stdoutPieces rs := rfl
  rw [hcons]
  by_cases hout : r.type.toNat = fcgiStdout
  · rw [if_pos hout] at heq ⊢
    by_cases hlen : r.content.length + r.padding.length = 0
    · rw [if_pos hlen] at heq ⊢
      cases heq
      exact Or.inr (Or.inl ⟨rfl, rfl, rfl⟩)
    · rw [if_neg hlen] at heq ⊢
      exact Or.inl ⟨rfl, heq⟩
  · rw [if_neg hout] at heq ⊢
    by_cases hend : r.type.toNat = fcgiEndRequest
    · rw [if_pos hend] at heq ⊢
      cases heq
      exact Or.inr (Or.inr ⟨rfl, rfl, rfl⟩)
    · rw [if_neg hend] at heq ⊢
      cases heq
      exact Or.inr (Or.inl ⟨rfl, rfl, rfl⟩)

/-- **Behind the header, all content is passed on.** -/
theorem Handled.body (ht : Handled host h rs fin h') (hs : h.fileStarted = true) (hok : h'.failed = false) :
    h'.parsed = h.parsed ∧
      h'.forwarded = h.forwarded ++ if h.sendContentBody then (stdoutPieces rs).flatten else [] := by
  induction ht with
  | nil h =>
    refine ⟨rfl, ?_⟩
    simp [stdoutPieces]
  | @stop h h' r packet rs ios his hp =>
    rcases packet_cases his hp rs with ⟨hpieces, hstd⟩ | ⟨-, hfin, -⟩ | ⟨hpieces, -, rfl⟩
    · unfold Handler.stdout at hstd
      rw [if_pos hs] at hstd
      rcases forward_spec hstd with ⟨-, hfail⟩ | ⟨hfin, -⟩
      · exact absurd (hfail.symm.trans hok) nofun
      · cases hfin
    · cases hfin
    · rw [hpieces]
      simp
  | @next h h₁ h' r rs packet fin ios his hp ht ih =>
    rcases packet_cases his hp rs with ⟨hpieces, hstd⟩ | ⟨hpieces, -, rfl⟩ | ⟨-, hfin, -⟩
    · unfold Handler.stdout at hstd
      rw [if_pos hs] at hstd
      rcases forward_spec hstd with ⟨hfin, -⟩ | ⟨-, hf⟩
      · cases hfin
      · obtain ⟨hparsed, hfor⟩ := ih (hf.fileStarted.trans hs) hok
        refine ⟨hparsed.trans hf.parsed, ?_⟩
        rw [hfor, hf.forwarded, hf.sendContentBody, hpieces, List.append_assoc]
        congr 1
        split <;> rfl
    · rw [hpieces]
      exact ih hs hok
    · cases hfin
  | rb rb ht ih => exact ih hs hok
  | out out hs' ht ih => exact ih hs hok

/-- What has become of a response, by what the reader of its header finds. -/
def Ended (host : Host) (h h' : Handler) : Result Byte Nat → Prop
  | .pending _ => h'.parsed = h.parsed ∧ h'.forwarded = h.forwarded
  | .refused => h'.parsed = h.parsed ∧ h'.forwarded = h.forwarded
  | .found hlen buf rest => h'.parsed = some (buf.take hlen) ∧ h'.forwarded = h.forwarded ++
      if h.sendsContent host (buf.take hlen) then buf.drop hlen ++ rest.flatten else []

theorem Ended.congr (rb : Chunkqueue) (b : Bytes) {res : Result Byte Nat}
    (he : Ended host { h with rb := rb, responseHeader := b } h' res) : Ended host h h' res := by
  cases res with
  | pending buf => exact he
  | refused => exact he
  | found hlen buf rest =>
    obtain ⟨hparsed, hfor⟩ := he
    refine ⟨hparsed, ?_⟩
    rw [hfor]
    unfold Handler.sendsContent
    rw [parseHeader_congr]

/-- The packet in which the end of the header has been found: it ends the response, or its content is passed on. -/
theorem parseHeader_forward {buf : Bytes} {hlen : Nat}
    (heq : (if (h.parseHeader host (buf.take hlen)).1 then some (h.parseHeader host (buf.take hlen))
      else (h.parseHeader host (buf.take hlen)).2.forward ios (buf.drop hlen)) = some (fin, h₁))
    (hok : fin = true → h₁.failed = false) :
    h₁.parsed = some (buf.take hlen) ∧
      ((fin = true ∧ h₁.forwarded = h.forwarded ∧ h.sendsContent host (buf.take hlen) = false) ∨
      (fin = false ∧ h₁.fileStarted = true ∧ h₁.sendContentBody = h.sendsContent host (buf.take hlen) ∧
        h₁.forwarded = h.forwarded ++ if h.sendsContent host (buf.take hlen) then buf.drop hlen else [])) := by
  obtain ⟨hb, hparsed⟩ := @parseHeader_spec host h (buf.take hlen)
  split at heq
  · rename_i hfin
    obtain ⟨hfst, hsnd⟩ := Prod.ext_iff.mp (Option.some.inj heq)
    dsimp only at hfst hsnd
    subst hsnd
    exact ⟨hparsed, Or.inl ⟨hfst.symm.trans hfin, hb.forwarded, hb.sends hfin⟩⟩
  · rcases forward_spec heq with ⟨hfin, hfail⟩ | ⟨hfin, hf⟩
    · exact absurd (hfail.symm.trans (hok hfin)) nofun
    · refine ⟨hf.parsed.trans hparsed, Or.inr ⟨hfin, hf.fileStarted.trans hb.fileStarted, hf.sendContentBody, ?_⟩⟩
      rw [hf.forwarded, hb.forwarded]
      rfl

/-- **The header and the body of the records that are handled.** -/
theorem Handled.ended (ht : Handled host h rs fin h') (hs : h.fileStarted = false) (hok : h'.failed = false) :
    Ended host h h' (accumulate searchEnd maxHttpRequestHeader h.responseHeader (stdoutPieces rs)) := by
  induction ht with
  | nil h => exact ⟨rfl, rfl⟩
  | @stop h h' r packet rs ios his hp =>
    rcases packet_cases his hp rs with ⟨hpieces, hstd⟩ | ⟨-, hfin, -⟩ | ⟨hpieces, -, rfl⟩
    · unfold Handler.stdout at hstd
      rw [if_neg (by rw [hs]; nofun)] at hstd
      dsimp only at hstd
      rw [hpieces, accumulate]
      cases hsearch : searchEnd (h.responseHeader ++ r.content) with
      | none =>
        rw [hsearch] at hstd
        dsimp only at hstd ⊢
        split at hstd
        · rename_i hlong
          cases hstd
          rw [if_pos hlong]
          exact ⟨rfl, rfl⟩
        · cases hstd
      | some hlen =>
        rw [hsearch] at hstd
        dsimp only at hstd ⊢
        apply Ended.congr h.rb (h.responseHeader ++ r.content)
        obtain ⟨hparsed, ⟨-, hfor, hsend⟩ | ⟨hfin, -⟩⟩ := parseHeader_forward hstd fun _ => hok
        · refine ⟨hparsed, ?_⟩
          rw [hfor, hsend]
          simp
        · cases hfin
    · cases hfin
    · rw [hpieces]
      exact ⟨rfl, rfl⟩
  | @next h h₁ h' r rs packet fin ios his hp ht ih =>
    rcases packet_cases his hp rs with ⟨hpieces, hstd⟩ | ⟨hpieces, -, rfl⟩ | ⟨-, hfin, -⟩
    · unfold Handler.stdout at hstd
      rw [if_neg (by rw [hs]; nofun)] at hstd
      dsimp only at hstd
      rw [hpieces, accumulate]
      cases hsearch : searchEnd (h.responseHeader ++ r.content) with
      | none =>
        rw [hsearch] at hstd
        dsimp only at hstd ⊢
        split at hstd
        · cases hstd
        · rename_i hshort
          cases hstd
          rw [if_neg hshort]
          exact Ended.congr h.rb (h.responseHeader ++ r.content) (ih hs hok)
      | some hlen =>
        rw [hsearch] at hstd
        dsimp only at hstd ⊢
        apply Ended.congr h.rb (h.responseHeader ++ r.content)
        obtain ⟨hparsed, ⟨hfin, -⟩ | ⟨-, hstart, hsend, hfor⟩⟩ := parseHeader_forward hstd nofun
        · cases hfin
        · obtain ⟨hparsed', hfor'⟩ := ht.body hstart hok
          refine ⟨hparsed'.trans hparsed, ?_⟩
          rw [hfor', hfor, hsend, List.append_assoc]
          congr 1
          split <;> rfl
    · rw [hpieces]
      exact ih hs hok
    · cases hfin
  | rb rb ht ih => exact Ended.congr rb _ (ih hs hok)
  | out out hs' ht ih => exact absurd (hs'.symm.trans hs) nofun

/-! ## The claim -/

/-- A response of which nothing has been read. -/
structure Handler.Fresh (h : Handler) : Prop where
  ready : Ready h.rb
  empty : Conn.stream h.rb.chunks = []
  responseHeader : h.responseHeader = []
  fileStarted : h.fileStarted = false
  parsed : h.parsed = none
  forwarded : h.forwarded = []

/-- **The response `s` has been split at its first blank line**: what stands before it has been parsed as the header,
and everything behind it has been passed on, unless the header says that it is not to be sent. -/
def SplitRight (host : Host) (h h' : Handler) (s : Bytes) : Prop :=
  match blankEnd s with
  | some n => h'.parsed = some (s.take n) ∧ h'.forwarded = if h.sendsContent host (s.take n) then s.drop n else []
  | none => h'.parsed = none ∧ h'.forwarded = []

/-- **Where the records `ds` of a response with a blank line may end**: none of them ends behind the limit inside the
header, and in what has accumulated with the record in which the first blank line ends, `\r\n\r\n` does not stand behind
`\n\n`. -/
def WellCut (ds : List Bytes) : Prop :=
  blankEnd ds.flatten ≠ none → ¬ Overrun blankEnd maxHttpRequestHeader [] ds ∧
    ∀ buf, arrival blankEnd [] ds = some buf → Plain buf

theorem overrun_congr {buf : Bytes} {ds : List Bytes} :
    Overrun searchEnd maxHttpRequestHeader buf ds ↔ Overrun blankEnd maxHttpRequestHeader buf ds := by
  unfold Overrun
  simp only [searchEnd_eq_none_iff]

theorem arrival_congr (buf : Bytes) (ds : List Bytes) : arrival searchEnd buf ds = arrival blankEnd buf ds := by
  induction ds generalizing buf with
  | nil => rfl
  | cons d ds ih =>
    have hsome : (searchEnd (buf ++ d)).isSome = (blankEnd (buf ++ d)).isSome := by
      rw [Bool.eq_iff_iff, ← Option.ne_none_iff_isSome, ← Option.ne_none_iff_isSome, Ne, Ne, searchEnd_eq_none_iff]
    unfold arrival
    rw [hsome, ih]

/-- **The response is split at its first blank line if and only if its records are well cut.** -/
theorem split_iff (host : Host) (bufmin : Bool) (h : Handler) (hfresh : h.Fresh) (es : List Event) (hdel : Delivers es)
    (ret : Backend.Ret) (h' : Handler) (hrun : run host bufmin es h = some (ret, h')) (hok : h'.failed = false)
    (rs : List Record) (rest : Bytes) (hdec : Decodes (wire es) rs rest) :
    SplitRight host h h' (stdoutPieces rs).flatten ↔ WellCut (stdoutPieces rs) := by
  have hnil : decode ([] : Bytes) = none := rfl
  obtain ⟨fin, ht⟩ := Handled.run hdel hfresh.ready (by rw [hfresh.empty]; exact hnil)
    (by rw [hfresh.empty]; exact hdec) hrun
  have he := ht.ended hfresh.fileStarted hok
  rw [hfresh.responseHeader] at he
  generalize stdoutPieces rs = ds at he
  unfold SplitRight WellCut
  have hrefused := accumulate_refused_iff maxHttpRequestHeader searchEnd_lasting [] ds
  rw [overrun_congr] at hrefused
  cases hacc : accumulate searchEnd maxHttpRequestHeader [] ds with
  | refused =>
    rw [hacc] at he
    have hover := hrefused.mp hacc
    cases hblank : blankEnd ds.flatten with
    | none => exact iff_of_true ⟨he.1.trans hfresh.parsed, he.2.trans hfresh.forwarded⟩ fun hne => absurd rfl hne
    | some n =>
      refine iff_of_false (fun hright => ?_) fun hwell => (hwell nofun).1 hover
      exact absurd (hright.1.symm.trans (he.1.trans hfresh.parsed)) nofun
  | pending buf =>
    rw [hacc] at he
    obtain ⟨rfl, hnone⟩ := accumulate_pending (rfl : searchEnd [] = none) hacc
    rw [searchEnd_eq_none_iff, List.nil_append] at hnone
    rw [hnone]
    exact iff_of_true ⟨he.1.trans hfresh.parsed, he.2.trans hfresh.forwarded⟩ fun hne => absurd rfl hne
  | found hlen buf rest =>
    rw [hacc] at he
    obtain ⟨hsearch, heq, harrival⟩ := accumulate_arrival hacc
    rw [List.nil_append] at heq
    rw [arrival_congr] at harrival
    obtain ⟨n, hn⟩ : ∃ n, blankEnd buf = some n := by
      rw [← Option.ne_none_iff_exists', Ne, ← searchEnd_eq_none_iff, hsearch]
      nofun
    have hle := blankEnd_le hn
    have hle' := searchEnd_le hsearch
    have hover : ¬ Overrun blankEnd maxHttpRequestHeader [] ds := by
      rw [← hrefused, hacc]
      nofun
    rw [← heq, blankEnd_stable hn]
    dsimp only
    rw [List.take_append_of_le_length hle, List.drop_append_of_le_length hle]
    have hplain := searchEnd_eq_iff hn
    rw [hsearch] at hplain
    constructor
    · rintro ⟨hparsed, -⟩ -
      refine ⟨hover, fun buf' hbuf' => ?_⟩
      obtain rfl : buf = buf' := Option.some.inj (harrival.symm.trans hbuf')
      have hlen' := congrArg List.length (Option.some.inj (he.1.symm.trans hparsed))
      rw [List.length_take, List.length_take] at hlen'
      exact hplain.mp (congrArg some (by omega))
    · intro hwell
      obtain rfl : hlen = n := Option.some.inj (hplain.mpr ((hwell nofun).2 buf harrival))
      refine ⟨he.1, ?_⟩
      rw [he.2, hfresh.forwarded]
      rfl

def sampleHandler : Handler where
  rb := .init none 1024
  responseHeader := []
  fileStarted := false
  sendContentBody := true
  reply := .init
  direct := false
  out := Response.sampleResponse
  parsed := none
  forwarded := []
  failed := false

/-- A responder; there is nothing to send in place of its content. -/
def sampleHost : Host := ⟨⟨false, false, fun _ out => (0, out, 0)⟩, fun _ r => r⟩

theorem sampleHandler_fresh : sampleHandler.Fresh := ⟨⟨⟨by decide, nofun⟩, nofun⟩, rfl, rfl, rfl, rfl, rfl⟩

/-- The record of a content of less than 256 bytes. -/
def stdoutRecord (s : Bytes) : Bytes := [1, 6, 0, 1, 0, s.length.toUInt8, 0, 0] ++ s

def readOnce (records : List Bytes) : List Event := [.data 100 records.flatten fun _ => []]

/-- What a run has parsed as the header and passed on as the body. -/
def runSplit (records : List Bytes) : Option (Option Bytes × Bytes) :=
  (run sampleHost false (readOnce records) sampleHandler).map fun r => (r.2.parsed, r.2.forwarded)

/-- A response whose blank line is cut by the end of a record. -/
def cutPieces : List Bytes := [ascii "A: b\r\n\r", ascii "\nh", ascii "i"]

/-- The stream is read in two parts, of which the first one ends in the second record. -/
def readTwice (records : List Bytes) : List Event :=
  [.data 100 (records.flatten.take 20) fun _ => [], .data 100 (records.flatten.drop 20) fun _ => []]

theorem split_iff_sample : ∃ ret h',
    run sampleHost false (readTwice (cutPieces.map stdoutRecord)) sampleHandler = some (ret, h') ∧
      h'.parsed = some (ascii "A: b\r\n\r\n") ∧ h'.forwarded = ascii "hi" ∧
      (SplitRight sampleHost sampleHandler h' (stdoutPieces (cutPieces.map fun s => ⟨1, 6, 1, s, [], 0⟩)).flatten ↔
        WellCut (stdoutPieces (cutPieces.map fun s => ⟨1, 6, 1, s, [], 0⟩))) := by
  have hrun : (run sampleHost false (readTwice (cutPieces.map stdoutRecord)) sampleHandler).map
      (fun r => (r.2.failed, r.2.parsed, r.2.forwarded)) = some (false, some (ascii "A: b\r\n\r\n"), ascii "hi") := by
    decide
  obtain ⟨⟨ret, h'⟩, h, hout⟩ := Option.map_eq_some_iff.mp hrun
  simp only [Prod.mk.injEq] at hout
  refine ⟨ret, h', h, hout.2.1, hout.2.2,
    split_iff sampleHost false sampleHandler sampleHandler_fresh _ ?_ ret h' h hout.1 _ [] ?_⟩
  · intro e he
    rcases List.mem_pair.mp he with rfl | rfl <;> decide
  · exact .record (t := stdoutRecord (ascii "\nh") ++ stdoutRecord (ascii "i")) (by decide)
      (.record (t := stdoutRecord (ascii "i")) (by decide) (.record (by decide) (.rest rfl)))

/-- **A header that ends in `\n\n`, before a body with `\r\n\r\n`**: in one record with the body, a part of the body is
parsed as header fields. -/
theorem blank_line_missed :
    runSplit [stdoutRecord (ascii "A: b\n\nx\r\n\r\ny")] = some (some (ascii "A: b\n\nx\r\n\r\n"), ascii "y") ∧
    runSplit [stdoutRecord (ascii "A: b\n\n"), stdoutRecord (ascii "x\r\n\r\ny")] =
      some (some (ascii "A: b\n\n"), ascii "x\r\n\r\ny") := by
  constructor
  · decide
  · decide

end Fcgi
end Lighttpd
