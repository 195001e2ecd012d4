import Lighttpd.Backend.Demux

/-!
# The scans for the end of a CGI or SCGI header

Both scans start anew at the beginning of what has accumulated. Their verdicts stay when more follows, so that they are
`Scanner`s (`cgi`, `scgi`).
-/

namespace Lighttpd
namespace Backend
open Request Splitter

/-- Whether the response is a non-parsed one does not change, but for the beginnings of `HTTP/1.`. -/
theorem isNph_append (s t : Bytes) : isNph (s ++ t) = isNph s ∨ s ∈ (ascii "HTTP/1.").inits := by
  unfold isNph
  by_cases hpre : ascii "HTTP/1." <+: s
  · left
    rw [List.isPrefixOf_iff_prefix.mpr hpre, List.isPrefixOf_iff_prefix.mpr (hpre.trans (List.prefix_append s t))]
  · by_cases hlong : ascii "HTTP/1." <+: s ++ t
    · right
      rw [List.mem_inits]
      rcases Nat.le_total s.length (ascii "HTTP/1.").length with hle | hle
      · exact List.prefix_of_prefix_length_le (List.prefix_append s t) hlong hle
      · exact absurd (List.prefix_of_prefix_length_le hlong (List.prefix_append s t) hle) hpre
    · left
      rw [Bool.eq_iff_iff, List.isPrefixOf_iff_prefix, List.isPrefixOf_iff_prefix]
      exact iff_of_false hlong hpre

/-! ## CGI -/

theorem lf_ne_colon : chr '\n' ≠ chr ':' := by decide

variable {s : Bytes}

theorem cgiScanFrom_append {isHeader : Bool} {lastEol i : Nat} {last : Byte} {r : Bool × Nat}
    (h : cgiScanFrom isHeader lastEol i last s = some r) (t : Bytes) :
    cgiScanFrom isHeader lastEol i last (s ++ t) = some r := by
  fun_induction cgiScanFrom isHeader lastEol i last s with
  | case1 => cases h
  | case2 isHeader lastEol i last s ih =>
    rw [List.cons_append, cgiScanFrom, if_pos rfl]
    exact ih h
  | case3 isHeader lastEol i last s hnone =>
    rw [List.cons_append, cgiScanFrom, if_neg lf_ne_colon, if_pos rfl, if_pos hnone]
    exact h
  | case4 isHeader lastEol i last s hsome hend =>
    rw [List.cons_append, cgiScanFrom, if_neg lf_ne_colon, if_pos rfl, if_neg hsome, if_pos hend]
    exact h
  | case5 isHeader lastEol i last s hsome hend _ ih =>
    rw [List.cons_append, cgiScanFrom, if_neg lf_ne_colon, if_pos rfl, if_neg hsome, if_neg hend]
    exact ih h
  | case6 isHeader lastEol i last c s hcolon hlf ih =>
    rw [List.cons_append, cgiScanFrom, if_neg hcolon, if_neg hlf]
    exact ih h

theorem cgiScanFrom_le {isHeader : Bool} {lastEol i : Nat} {last : Byte} {r : Bool × Nat}
    (h : cgiScanFrom isHeader lastEol i last s = some r) : r.2 ≤ i + s.length := by
  fun_induction cgiScanFrom isHeader lastEol i last s with
  | case1 => cases h
  | case2 isHeader lastEol i last s ih =>
    have := ih h
    rw [List.length_cons]
    omega
  | case3 isHeader lastEol i last s hnone =>
    cases h
    rw [List.length_cons]
    omega
  | case4 isHeader lastEol i last s hsome hend =>
    cases h
    rw [List.length_cons]
    omega
  | case5 isHeader lastEol i last s hsome hend _ ih =>
    have := ih h
    rw [List.length_cons]
    omega
  | case6 isHeader lastEol i last c s hcolon hlf ih =>
    have := ih h
    rw [List.length_cons]
    omega

theorem cgiScan_stable {v : Option Nat} (h : cgiScan s = some v) (t : Bytes) : cgiScan (s ++ t) = some v := by
  unfold cgiScan at h ⊢
  obtain ⟨r, hr, rfl⟩ := Option.map_eq_some_iff.mp h
  rcases isNph_append s t with hn | hn
  · rw [hn, cgiScanFrom_append hr t]
    rfl
  · have hnone : ∀ s ∈ (ascii "HTTP/1.").inits, cgiScanFrom (isNph s) 0 0 0 s = none := by decide
    rw [hnone s hn] at hr
    cases hr

theorem cgiScan_le {n : Nat} (h : cgiScan s = some (some n)) : n ≤ s.length := by
  unfold cgiScan at h
  obtain ⟨r, hr, heq⟩ := Option.map_eq_some_iff.mp h
  have hle := cgiScanFrom_le hr
  split at heq
  · cases heq
    omega
  · cases heq

/-! ## SCGI -/

theorem scgiScanFrom_append {inHeader : Bool} {eol : Option Eol} {cp : Nat} {v : Option (Eol × Nat)}
    (h : scgiScanFrom inHeader eol cp s = some v) (t : Bytes) : scgiScanFrom inHeader eol cp (s ++ t) = some v := by
  fun_induction scgiScanFrom inHeader eol cp s with
  | case1 => cases h
  | case2 inHeader eol cp s hnone =>
    rw [List.cons_append, List.cons_append, scgiScanFrom, if_pos hnone]
    exact h
  | case3 inHeader eol cp s hsome htake =>
    have hlen : 2 ≤ s.length := by
      have := congrArg List.length htake
      rw [List.length_take] at this
      simp only [List.length_cons, List.length_nil] at this
      omega
    rw [List.cons_append, List.cons_append, scgiScanFrom, if_neg hsome, List.take_append_of_le_length hlen,
      if_pos htake]
    exact h
  | case4 inHeader eol cp s hsome htake ih =>
    have hne : (s ++ t).take 2 ≠ [13, 10] := by
      match s, htake, h with
      | [], _, h => cases h
      | [c], _, h =>
        -- a CR at the end of what has accumulated is not yet the end of a line
        by_cases hc : c = 10
        · subst hc
          simp
        · simp [scgiScanFrom] at h
      | c :: c' :: s, htake, _ => exact htake
    rw [List.cons_append, List.cons_append, scgiScanFrom, if_neg hsome, if_neg hne]
    exact ih h
  | case5 inHeader eol cp s hnone =>
    rw [List.cons_append, scgiScanFrom, if_pos hnone]
    exact h
  | case6 inHeader eol cp s hsome hhead =>
    have hhead' : (s ++ t).head? = some 10 := by
      cases s with
      | nil => cases hhead
      | cons c s => exact hhead
    rw [List.cons_append, scgiScanFrom, if_neg hsome, if_pos hhead']
    exact h
  | case7 inHeader eol cp s hsome hhead ih =>
    have hhead' : (s ++ t).head? ≠ some 10 := by
      cases s with
      | nil => cases h
      | cons c s => exact hhead
    rw [List.cons_append, scgiScanFrom, if_neg hsome, if_neg hhead']
    exact ih h
  | case8 inHeader eol cp c s hcr hlf ih =>
    rw [List.cons_append, scgiScanFrom]
    · exact ih h
    · intro s' hc hs
      cases s with
      | nil => cases h
      | cons c' s =>
        obtain ⟨rfl, -⟩ := List.cons.inj hs
        exact hcr s hc rfl
    · exact hlf

theorem scgiScanFrom_le {inHeader : Bool} {eol : Option Eol} {cp : Nat} {v : Eol × Nat}
    (h : scgiScanFrom inHeader eol cp s = some (some v)) : v.2 ≤ cp + s.length := by
  fun_induction scgiScanFrom inHeader eol cp s with
  | case1 => cases h
  | case2 => cases h
  | case3 inHeader eol cp s hsome htake =>
    cases h
    have := congrArg List.length htake
    rw [List.length_take] at this
    simp only [List.length_cons, List.length_nil] at this ⊢
    omega
  | case4 inHeader eol cp s hsome htake ih =>
    have := ih h
    simp only [List.length_cons]
    omega
  | case5 => cases h
  | case6 inHeader eol cp s hsome hhead =>
    cases h
    cases s with
    | nil => cases hhead
    | cons c s =>
      simp only [List.length_cons]
      omega
  | case7 inHeader eol cp s hsome hhead ih =>
    have := ih h
    simp only [List.length_cons]
    omega
  | case8 inHeader eol cp c s hcr hlf ih =>
    have := ih h
    simp only [List.length_cons]
    omega

theorem scgiScan_stable {v : Option (Eol × Nat)} (h : scgiScan s = some v) (t : Bytes) :
    scgiScan (s ++ t) = some v := by
  unfold scgiScan at h ⊢
  rcases isNph_append s t with hn | hn
  · rw [hn]
    exact scgiScanFrom_append h t
  · have hnone : ∀ s ∈ (ascii "HTTP/1.").inits, scgiScanFrom (isNph s) none 0 s = none := by decide
    rw [hnone s hn] at h
    cases h

theorem scgiScan_le {v : Eol × Nat} (h : scgiScan s = some (some v)) : v.2 ≤ s.length := by
  have := scgiScanFrom_le h
  omega

/-! ## The two programs -/

theorem checkSendfile_finished {x : Xsendfile} {h h' : Demux} (heq : h.checkSendfile x = (.finished, h')) :
    h'.fileStarted = true := by
  unfold Demux.checkSendfile at heq
  split at heq
  · cases heq
    rfl
  · cases heq

theorem cgiStart_ends {x : Xsendfile} {h h' : Demux} (heq : cgiStart x h = some (.finished, h')) :
    h'.fileStarted = true ∨ h'.reply.httpStatus ≠ 502 := by
  unfold cgiStart at heq
  dsimp only at heq
  split at heq
  · right
    unfold Demux.localRedirect at heq
    dsimp only at heq
    split at heq
    · cases heq
      exact fun h => absurd h (by decide : (500 : Nat) ≠ 502)
    · obtain ⟨h₁, -, heq⟩ := Option.bind_eq_some_iff.mp heq
      cases heq
  · exact Or.inl (checkSendfile_finished (Option.some.inj heq))

/-- `cgi_demux_response`. -/
def cgi (x : Xsendfile) : Demuxer Nat where
  scanner := ⟨cgiScan, cgiScan_stable⟩
  size := id
  size_le := cgiScan_le
  scan_nil := by decide
  header := cgiHeader
  start _ h := cgiStart x h
  start_ends := cgiStart_ends
  appendFailed := .error

/-- `scgi_demux_response`. -/
def scgi (x : Xsendfile) : Demuxer (Eol × Nat) where
  scanner := ⟨scgiScan, scgiScan_stable⟩
  size := Prod.snd
  size_le := scgiScan_le
  scan_nil := by decide
  header := List.dropLast
  start v h := some (scgiStart x v.1 h)
  start_ends heq := Or.inl (checkSendfile_finished (Option.some.inj heq))
  appendFailed := .finished

end Backend
end Lighttpd
