import Lighttpd.Request.Host

/-!
# The normal form of a host (`request.c`)

`http_request_host_normalize` cuts the buffer with NULs while it reads an address, and restores it. `InPlace` has these
writes.

* `inPlace_eq`: the buffer is as before whenever it returns `-1`;
* `IsHost` says which literal and which port a host spells, `normalize_isHost` what it is normalised to;
* `normalize_canonical`: a second time nothing changes, and two spellings have one normal form.
-/

namespace Lighttpd.Request

/-! ## In place -/

namespace InPlace

/-- The address between the brackets: `inet_pton` reads up to a NUL in the place of the bracket or of `%`. -/
def readAddress (inet : Inet) (b : Bytes) (bracket : Nat) (percent : Option Nat) : Option (List Byte) × Bytes :=
  let b := b.set bracket 0
  let b := match percent with
    | some percent => b.set percent 0
    | none => b
  let rc := inet.pton6 (cstr b.tail)
  let b := match percent with
    | some percent => b.set percent (chr '%')
    | none => b
  (rc, b.set bracket (chr ']'))

/-- The part for `[...]`, up to the port. -/
def bracketAddress (inet : Inet) (b : Bytes) (bracket : Nat) : Bool × Bytes :=
  let percent := ((cstr b.tail).idxOf? (chr '%')).map (· + 1)
  match readAddress inet b bracket percent with
  | (none, b) => (false, b)
  | (some addr, b) =>
    let buf := inet.ntop6 addr
    match percent with
    | none => (true, b.take 1 ++ buf ++ [chr ']'])
    | some percent =>
      if percent > bracket then (false, b)
      else if buf.length + (bracket - percent) ≥ sizeofBuf6 then (false, b)
      else (true, b.take 1 ++ (buf ++ (b.drop percent).take (bracket - percent)) ++ [chr ']'])

def httpRequestHostNormalize (inet : Inet) (b : Bytes) : Bool × Bytes :=
  let (ok, b, port) :=
    if b.head? ≠ some (chr '[') then
      match b.idxOf? (chr ':') with
      | none => (true, normalizeName inet b, 0)
      | some colon =>
        if b.head? = some (chr ':') then (false, b, 0)
        else
          match readPort (b.drop (colon + 1)) with
          | none => (false, b, 0)
          | some port => (true, normalizeName inet (b.take colon), port)
    else if b.length ≤ 2 then (false, b, 0)
    else
      match findBracket b with
      | none => (false, b, 0)
      | some (bracket, port) =>
        let (ok, b) := bracketAddress inet b bracket
        (ok, b, port)
  if ok then (true, appendPort b port) else (false, b)

end InPlace

/-! ## Where the bracket is -/

/-- A port in any notation: nothing, a stray colon, or a number as `strtol` reads it. -/
inductive IsPort : Bytes → Nat → Prop
  | absent : IsPort [] 0
  | number {w : Bytes} {port : Nat} (h : readPort w = some port) : IsPort (chr ':' :: w) port

variable {inet : Inet} {b c s t u q w scope : Bytes} {bracket port : Nat}

/-- **The bracket ends the address, and the port stands behind it.** -/
theorem findBracket_split (hb : b.head? = some (chr '[')) (hlen : 2 < b.length)
    (h : findBracket b = some (bracket, port)) :
    ∃ u q, b = chr '[' :: (u ++ chr ']' :: q) ∧ bracket = u.length + 1 ∧ u ≠ [] ∧ IsPort q port ∧
      (q = [] ∨ chr ']' ∉ u) := by
  obtain ⟨v, rfl⟩ := List.head?_eq_some_iff.mp hb
  unfold findBracket at h
  split at h
  · rename_i hlast
    obtain ⟨rfl, rfl⟩ := Prod.mk.inj (Option.some.inj h)
    obtain ⟨x, hx⟩ := List.getLast?_eq_some_iff.mp hlast
    obtain ⟨u, rfl⟩ : ∃ u, x = chr '[' :: u := by
      cases x with
      | nil =>
        rw [(List.cons.inj hx).2] at hlen
        simp at hlen
      | cons d u => exact ⟨u, by rw [(List.cons.inj hx).1]⟩
    obtain rfl : v = u ++ [chr ']'] := (List.cons.inj hx).2
    refine ⟨u, [], rfl, by simp, ?_, .absent, Or.inl rfl⟩
    rintro rfl
    simp at hlen
  · rw [List.tail_cons] at h
    cases hk : v.idxOf? (chr ']') with
    | none => simp [hk] at h
    | some k =>
      obtain ⟨hv, hfirst⟩ := idxOf?_split hk
      have hlt : k < v.length := (List.idxOf?_eq_some_iff.mp hk).1
      simp only [hk] at h
      split at h
      · cases h
      · rename_i hport
        obtain ⟨hcolon, hk0⟩ := not_or.mp hport
        obtain ⟨p, hread, hp⟩ := Option.map_eq_some_iff.mp h
        obtain ⟨rfl, rfl⟩ := Prod.mk.inj hp
        have hdrop : v.drop (k + 1) = chr ':' :: v.drop (k + 2) := by
          have hget : v[k + 1]?.getD 0 = chr ':' := by simpa using hcolon
          have hin : k + 1 < v.length := by
            by_contra hout
            rw [List.getElem?_eq_none (by omega)] at hget
            revert hget
            decide
          rw [List.getElem?_eq_getElem hin, Option.getD_some] at hget
          rw [List.drop_eq_getElem_cons hin, hget]
        refine ⟨v.take k, v.drop (k + 1), by rw [← hv], ?_, ?_, ?_, Or.inr hfirst⟩
        · rw [List.length_take_of_le (by omega)]
        · intro hnil
          have hlength := congrArg List.length hnil
          rw [List.length_take_of_le (by omega)] at hlength
          simp at hlength
          omega
        · rw [hdrop]
          exact .number hread

theorem findBracket_last (u : Bytes) : findBracket (chr '[' :: (u ++ [chr ']'])) = some (u.length + 1, 0) := by
  have hlast : (chr '[' :: (u ++ [chr ']'])).getLast? = some (chr ']') := by
    rw [← List.cons_append, List.getLast?_concat]
  rw [findBracket, if_pos hlast]
  simp

theorem findBracket_port (hu : u ≠ []) (hclosed : chr ']' ∉ u) (hlast : (chr ':' :: w).getLast? ≠ some (chr ']'))
    (hw : readPort w = some port) :
    findBracket (chr '[' :: (u ++ chr ']' :: chr ':' :: w)) = some (u.length + 1, port) := by
  have hlast' : (chr '[' :: (u ++ chr ']' :: chr ':' :: w)).getLast? ≠ some (chr ']') := by
    have hparts : chr '[' :: (u ++ chr ']' :: chr ':' :: w) = (chr '[' :: (u ++ [chr ']'])) ++ chr ':' :: w := by simp
    rw [hparts, List.getLast?_append_of_ne_nil _ (List.cons_ne_nil _ _)]
    exact hlast
  have hlength : u.length ≠ 0 := fun h => hu (List.length_eq_zero_iff.mp h)
  have hdrop : (chr '[' :: (u ++ chr ']' :: chr ':' :: w)).drop (u.length + 1 + 2) = w := by
    simp [List.drop_append]
  rw [findBracket, if_neg hlast', List.tail_cons, idxOf?_append_cons hclosed]
  dsimp only
  rw [if_neg (by simp [hlength]), hdrop, hw]
  rfl

/-! ## The address between the brackets -/

theorem cstr_set_zero {n : Nat} (h : n < b.length) : cstr (b.set n 0) = cstr (b.take n) := by
  rw [List.set_eq_take_append_cons_drop, if_pos h, cstr, cstr, List.takeWhile_append]
  split
  · rename_i hfull
    simpa using (List.takeWhile_prefix _).eq_of_length hfull |>.symm
  · rfl

/-- **The buffer is restored behind `inet_pton`**, which has read up to the first of the two NULs. -/
theorem readAddress_eq {percent : Option Nat} (hbracket : b[bracket]? = some (chr ']')) (hpos : 0 < bracket)
    (hpercent : ∀ p, percent = some p → 0 < p ∧ b[p]? = some (chr '%')) :
    InPlace.readAddress inet b bracket percent =
      (inet.pton6 (cstr ((b.take (min (percent.getD bracket) bracket)).drop 1)), b) := by
  obtain ⟨k, rfl⟩ : ∃ k, bracket = k + 1 := ⟨bracket - 1, by omega⟩
  obtain ⟨d, v, rfl⟩ : ∃ d v, b = d :: v := by
    cases b with
    | nil => simp at hbracket
    | cons d v => exact ⟨d, v, rfl⟩
  obtain ⟨hk, hget⟩ := List.getElem?_eq_some_iff.mp hbracket
  rw [List.length_cons, Nat.add_lt_add_iff_right] at hk
  rw [List.getElem_cons_succ] at hget
  cases percent with
  | none =>
    have hrestore : v.set k (chr ']') = v := by rw [← hget, List.set_getElem_self]
    simp [InPlace.readAddress, cstr_set_zero hk, List.set_set, hrestore]
  | some p =>
    obtain ⟨hp0, hp⟩ := hpercent p rfl
    obtain ⟨j, rfl⟩ : ∃ j, p = j + 1 := ⟨p - 1, by omega⟩
    obtain ⟨hj, hgetj⟩ := List.getElem?_eq_some_iff.mp hp
    rw [List.length_cons, Nat.add_lt_add_iff_right] at hj
    rw [List.getElem_cons_succ] at hgetj
    have hne : j ≠ k := by
      rintro rfl
      rw [hget] at hgetj
      revert hgetj
      decide
    have hread : cstr ((v.set k 0).set j 0) = cstr (v.take (min j k)) := by
      rw [cstr_set_zero (by rwa [List.length_set])]
      by_cases hjk : j < k
      · rw [List.take_set_of_le (Nat.le_of_lt hjk), Nat.min_eq_left (Nat.le_of_lt hjk)]
      · rw [List.take_set, cstr_set_zero (by rw [List.length_take]; omega), List.take_take,
          Nat.min_eq_left (by omega), Nat.min_eq_right (by omega)]
    have hrestore : ((v.set k 0).set j (chr '%')).set k (chr ']') = v := by
      rw [List.set_comm _ _ hne, List.set_set, ← hget, List.set_getElem_self, ← hgetj, List.set_getElem_self]
    simp [InPlace.readAddress, List.set_set, hread, hrestore, Nat.add_min_add_right]

/-- A `%` of the string. -/
theorem percent_get {p : Nat} (h : (cstr b.tail).idxOf? (chr '%') = some p) : b[p + 1]? = some (chr '%') := by
  obtain ⟨hlt, hget, -⟩ := List.idxOf?_eq_some_iff.mp h
  have hcstr : (cstr b.tail)[p]? = some (chr '%') := by rw [List.getElem?_eq_getElem hlt, hget]
  obtain ⟨rest, hrest⟩ : cstr b.tail <+: b.tail := List.takeWhile_prefix _
  rw [← List.getElem?_tail, ← hrest, List.getElem?_append_left hlt, hcstr]

theorem bracketAddress_eq (hbracket : b[bracket]? = some (chr ']')) (hpos : 0 < bracket)
    (hb : b.head? = some (chr '[')) :
    InPlace.bracketAddress inet b bracket =
      match normalizeBracket inet b bracket with
      | none => (false, b)
      | some c => (true, c) := by
  obtain ⟨v, rfl⟩ := List.head?_eq_some_iff.mp hb
  unfold InPlace.bracketAddress normalizeBracket
  dsimp only
  rw [readAddress_eq hbracket hpos]
  · cases inet.pton6 _ with
    | none => rfl
    | some addr =>
      cases ((cstr (chr '[' :: v).tail).idxOf? (chr '%')).map (· + 1) with
      | none => rfl
      | some percent =>
        dsimp only
        split
        · rfl
        · split
          · rfl
          · rw [List.drop_take]
            rfl
  · intro p hp
    obtain ⟨k, hk, rfl⟩ := Option.map_eq_some_iff.mp hp
    exact ⟨Nat.succ_pos k, percent_get hk⟩

/-- **Every write before an error is taken back.** -/
theorem inPlace_eq (inet : Inet) (b : Bytes) :
    InPlace.httpRequestHostNormalize inet b = httpRequestHostNormalize inet b := by
  unfold InPlace.httpRequestHostNormalize httpRequestHostNormalize
  by_cases hb : b.head? = some (chr '[')
  · rw [if_neg (not_not_intro hb), if_neg (not_not_intro hb)]
    by_cases hlen : b.length ≤ 2
    · rw [if_pos hlen, if_pos hlen]
      rfl
    · rw [if_neg hlen, if_neg hlen]
      cases hfind : findBracket b with
      | none => rfl
      | some found =>
        obtain ⟨bracket, port⟩ := found
        obtain ⟨u, q, hsplit, hbracket, -⟩ := findBracket_split hb (by omega) hfind
        have hget : b[bracket]? = some (chr ']') := by rw [hsplit, hbracket]; simp
        dsimp only
        rw [bracketAddress_eq hget (by omega) hb]
        cases normalizeBracket inet b bracket with
        | none => rfl
        | some c => rfl
  · rw [if_pos hb, if_pos hb]
    cases hcolon : b.idxOf? (chr ':') with
    | none => rfl
    | some k =>
      obtain ⟨hsplit, hfirst⟩ := idxOf?_split hcolon
      cases k with
      | zero =>
        have hhead : b.head? = some (chr ':') := by rw [hsplit]; rfl
        simp [hhead]
      | succ k =>
        have hhead : b.head? ≠ some (chr ':') := by
          intro hhead
          obtain ⟨v, rfl⟩ := List.head?_eq_some_iff.mp hhead
          simp at hfirst
        cases hread : readPort (b.drop (k + 1 + 1)) with
        | none => simp [hhead, hread]
        | some port => simp [hhead, hread]

/-! ## The port -/

/-- The bytes of a number as `strtol` reads it. -/
def portChar (c : Byte) : Bool := isspace c || c == chr '+' || c == chr '-' || (digitVal c).isSome

theorem readDigits_isSome {base acc n : Nat} (h : readDigits base acc s = (n, [])) : ∀ c ∈ s, (digitVal c).isSome := by
  induction s generalizing acc with
  | nil => simp
  | cons d s ih =>
    rw [readDigits] at h
    cases hd : digitVal d with
    | none => simp [hd] at h
    | some x =>
      simp only [hd] at h
      split at h
      · intro c hc
        rcases List.mem_cons.mp hc with rfl | hc
        · simp [hd]
        · exact ih h c hc
      · simp at h

theorem detectBase_isSome (h : ∀ c ∈ (detectBase s).2, (digitVal c).isSome) : ∀ c ∈ s, (digitVal c).isSome := by
  unfold detectBase at h
  split at h
  · rename_i x d s' 
    split at h
    · rename_i hx
      intro c hc
      simp only [List.mem_cons] at hc
      rcases hc with rfl | rfl | hc
      · decide
      · have hall := forall_byte (p := fun c => !((c ||| 32) == chr 'x') || (digitVal c).isSome) (by decide +kernel) c
        simpa [hx.1] using hall
      · exact h c (by simpa using hc)
    · exact h
  · exact h
  · exact h

theorem strtol_auto (s : Bytes) : strtol 0 s =
    let t := readSign ((cstr s).dropWhile isspace)
    let d := detectBase t.2
    let r := readDigits d.1 0 d.2
    if r.2 = d.2 then (0, cstr s)
    else if t.1 then (max (-(r.1 : Int)) (-(longMax : Int) - 1), r.2) else (min r.1 longMax, r.2) := rfl

theorem readSign_portChar (h : ∀ c ∈ (readSign s).2, (digitVal c).isSome) : ∀ c ∈ s, portChar c = true := by
  have hdigit : ∀ c, (digitVal c).isSome → portChar c = true := fun c hc => by simp [portChar, hc]
  unfold readSign at h
  split at h
  · intro c hc
    rcases List.mem_cons.mp hc with rfl | hc
    · decide
    · exact hdigit c (h c hc)
  · intro c hc
    rcases List.mem_cons.mp hc with rfl | hc
    · decide
    · exact hdigit c (h c hc)
  · exact fun c hc => hdigit c (h c hc)

/-- **A port is a number and nothing else.** -/
theorem readPort_char (h : readPort s = some port) : ∀ c ∈ cstr s, portChar c = true := by
  unfold readPort at h
  split at h
  · rename_i hempty
    simp [List.isEmpty_iff.mp hempty]
  · dsimp only at h
    split at h
    · rename_i hport
      obtain ⟨hpos, -, hrest⟩ := hport
      rw [strtol_auto] at hpos hrest
      dsimp only at hpos hrest
      split at hrest
      · rename_i hmoved
        simp [hmoved] at hpos
      · have hall : (readDigits (detectBase (readSign ((cstr s).dropWhile isspace)).2).1 0
            (detectBase (readSign ((cstr s).dropWhile isspace)).2).2).2 = [] := by
          split at hrest <;> exact hrest
        have hsign := readSign_portChar (detectBase_isSome (readDigits_isSome (Prod.ext rfl hall)))
        intro c hc
        rw [← List.takeWhile_append_dropWhile (p := isspace) (l := cstr s)] at hc
        rcases List.mem_append.mp hc with hc | hc
        · simp [portChar, List.mem_takeWhile_imp hc]
        · exact hsign c hc
    · cases h

theorem readPort_range (h : readPort s = some port) : port ≤ 65535 := by
  unfold readPort at h
  split at h
  · cases h
    omega
  · dsimp only at h
    split at h
    · cases h
      omega
    · cases h

/-! ## A printed port -/

theorem readDigits_printed {l : List Char} (h : ∀ c ∈ l, c.isDigit = true) (acc : Nat) :
    readDigits 10 acc (l.map fun c => c.toNat.toUInt8) = (Nat.ofDigitChars 10 l acc, []) := by
  induction l generalizing acc with
  | nil => rfl
  | cons c l ih =>
    have hc : 48 ≤ c.toNat ∧ c.toNat ≤ 57 := by
      simpa [Char.isDigit, UInt32.le_iff_toNat_le] using h c List.mem_cons_self
    have hval : digitVal c.toNat.toUInt8 = some (c.toNat - 48) := by
      have hbyte : c.toNat.toUInt8.toNat = c.toNat := by simp; omega
      have hdigit : lightIsdigit c.toNat.toUInt8 = true := by
        simp only [lightIsdigit, Bool.and_eq_true, decide_eq_true_eq, UInt8.le_iff_toNat_le, hbyte]
        exact hc
      rw [digitVal, if_pos hdigit, hbyte]
    rw [List.map_cons, readDigits, hval]
    dsimp only
    rw [if_pos (by omega), ih (fun d hd => h d (List.mem_cons_of_mem c hd)), Nat.ofDigitChars_cons]
    rw [Nat.mul_comm acc 10]
    rfl

theorem toDigits_head {n : Nat} (h : 0 < n) : ∃ c l, Nat.toDigits 10 n = c :: l ∧ c ≠ '0' := by
  induction n using Nat.base_induction 10 (by decide) with
  | single m hm =>
    refine ⟨m.digitChar, [], Nat.toDigits_of_lt_base hm, fun hzero => ?_⟩
    have hval := Nat.toNat_digitChar_sub_48_of_lt_ten hm
    rw [hzero] at hval
    have h48 : ('0' : Char).toNat = 48 := rfl
    omega
  | digit m k hk hm ih =>
    obtain ⟨c, l, hl, hc⟩ := ih hm
    exact ⟨c, l ++ Nat.toDigits 10 k, by rw [← Nat.toDigits_append_toDigits (by decide) hm hk, hl, List.cons_append], hc⟩

/-- A printed number starts with a digit that is not `0`, and has digits only. -/
theorem intBytes_digits {n : Nat} (h : 0 < n) : ∃ c l, intBytes n = c :: l ∧ c ≠ 48 ∧
    ∀ d ∈ c :: l, lightIsdigit d = true := by
  obtain ⟨c, l, hl, hc⟩ := toDigits_head h
  have hbytes : intBytes n = (Nat.toDigits 10 n).map fun c => c.toNat.toUInt8 := by
    rw [intBytes, ascii, Nat.toString_eq_repr, Nat.toList_repr]
  have hdigit : ∀ d ∈ Nat.toDigits 10 n, 48 ≤ d.toNat ∧ d.toNat ≤ 57 := fun d hd => by
    simpa [Char.isDigit, UInt32.le_iff_toNat_le] using Nat.isDigit_of_mem_toDigits (by decide) (by decide) hd
  have hbyte : ∀ d ∈ Nat.toDigits 10 n, d.toNat.toUInt8.toNat = d.toNat := fun d hd => by
    have := hdigit d hd
    simp
    omega
  rw [hbytes, hl, List.map_cons]
  refine ⟨_, _, rfl, fun hzero => hc ?_, fun d hd => ?_⟩
  · have hnat := congrArg UInt8.toNat hzero
    rw [hbyte c (by rw [hl]; exact List.mem_cons_self)] at hnat
    exact Char.toNat_inj.mp hnat
  · rw [← List.map_cons (f := fun c : Char => c.toNat.toUInt8), ← hl] at hd
    obtain ⟨e, he, rfl⟩ := List.mem_map.mp hd
    simp only [lightIsdigit, Bool.and_eq_true, decide_eq_true_eq, UInt8.le_iff_toNat_le, hbyte e he]
    exact hdigit e he

theorem readDigits_intBytes (n : Nat) : readDigits 10 0 (intBytes n) = (n, []) := by
  rw [intBytes, ascii, Nat.toString_eq_repr, Nat.toList_repr, readDigits_printed, Nat.ofDigitChars_ten_toDigits]
  exact fun c hc => Nat.isDigit_of_mem_toDigits (by decide) (by decide) hc

/-- **A printed port is read back.** -/
theorem readPort_intBytes {n : Nat} (hpos : 0 < n) (hle : n ≤ 65535) : readPort (intBytes n) = some n := by
  obtain ⟨c, l, hl, hc, hdigits⟩ := intBytes_digits hpos
  have hread := readDigits_intBytes n
  rw [hl] at hread ⊢
  have hnul : (0 : Byte) ∉ c :: l := fun h => absurd (hdigits 0 h) (by decide)
  have hdigit := hdigits c List.mem_cons_self
  have hspace : isspace c = false := (digit_facts hdigit).1
  have hsign : readSign (c :: l) = (false, c :: l) := by
    have hne : ∀ d, lightIsdigit d = false → c ≠ d := by
      rintro d hd rfl
      rw [hdigit] at hd
      cases hd
    unfold readSign
    split
    · rename_i heq
      exact absurd (List.cons.inj heq).1 (hne 45 (by decide))
    · rename_i heq
      exact absurd (List.cons.inj heq).1 (hne 43 (by decide))
    · rfl
  have hbase : detectBase (c :: l) = (10, c :: l) := by
    unfold detectBase
    split
    · rename_i heq
      exact absurd (List.cons.inj heq).1 hc
    · rename_i heq
      exact absurd (List.cons.inj heq).1 hc
    · rfl
  have hstrtol : strtol 0 (c :: l) = ((n : Int), []) := by
    rw [strtol_auto, cstr_eq_self hnul, List.dropWhile_cons_of_neg (by simp [hspace]), hsign]
    dsimp only
    rw [hbase]
    dsimp only
    rw [hread]
    simp [longMax]
    omega
  rw [readPort, cstr_eq_self hnul, hstrtol]
  simp
  omega

def portText (port : Nat) : Bytes := if port = 0 then [] else chr ':' :: intBytes port

theorem appendPort_eq (b : Bytes) (port : Nat) : appendPort b port = b ++ portText port := by
  unfold appendPort portText
  split <;> simp

theorem portText_isPort (h : port ≤ 65535) : IsPort (portText port) port := by
  unfold portText
  split
  · rename_i hzero
    rw [hzero]
    exact .absent
  · exact .number (readPort_intBytes (by omega) h)

theorem portText_last (port : Nat) : (portText port).getLast? ≠ some (chr ']') := by
  intro hlast
  have hmem := List.mem_of_getLast? hlast
  unfold portText at hmem
  split at hmem
  · cases hmem
  · obtain ⟨c, l, hl, -, hdigits⟩ := intBytes_digits (n := port) (by omega)
    rw [hl] at hmem
    rcases List.mem_cons.mp hmem with h | h
    · revert h
      decide
    · have hdigit := hdigits _ h
      revert hdigit
      decide

theorem IsPort.le (h : IsPort q port) : port ≤ 65535 := by
  cases h with
  | absent => omega
  | number h => exact readPort_range h

/-- A port has no `%`. -/
theorem IsPort.percent (h : IsPort q port) : chr '%' ∉ cstr q := by
  cases h with
  | absent => simp [cstr]
  | @number w _ h =>
    have hcstr : cstr (chr ':' :: w) = chr ':' :: cstr w := List.takeWhile_cons_of_pos (by decide)
    rw [hcstr]
    intro hmem
    rcases List.mem_cons.mp hmem with hmem | hmem
    · revert hmem
      decide
    · have hchar := readPort_char h _ hmem
      revert hchar
      decide

theorem IsPort.last (h : IsPort q port) (hnul : (0 : Byte) ∉ q) : q.getLast? ≠ some (chr ']') := by
  cases h with
  | absent => simp
  | @number w _ h =>
    intro hlast
    rcases List.mem_cons.mp (List.mem_of_getLast? hlast) with hmem | hmem
    · revert hmem
      decide
    · have hchar := readPort_char h _ (by rwa [cstr_eq_self fun h0 => hnul (List.mem_cons_of_mem _ h0)])
      revert hchar
      decide

/-! ## The parts of a host -/

/-- **A name, or an IPv4 address.** -/
theorem normalize_name (hbracket : s.head? ≠ some (chr '[')) (hcolon : chr ':' ∉ s) (hne : s ≠ [] ∨ q = [])
    (hq : IsPort q port) :
    httpRequestHostNormalize inet (s ++ q) = (true, appendPort (normalizeName inet s) port) := by
  have hhead : (s ++ q).head? ≠ some (chr '[') := by
    cases s with
    | nil =>
      rw [hne.resolve_left (fun h => h rfl)]
      simp
    | cons d s => simpa using hbracket
  unfold httpRequestHostNormalize
  rw [if_pos hhead]
  cases hq with
  | absent =>
    rw [List.append_nil, List.idxOf?_eq_none_iff.mpr hcolon]
    rfl
  | @number w _ h =>
    have hpos : s.length ≠ 0 := fun h0 => hne.elim (fun h => h (List.length_eq_zero_iff.mp h0)) (by simp)
    obtain ⟨k, hk⟩ : ∃ k, s.length = k + 1 := ⟨s.length - 1, by omega⟩
    have hdrop : (s ++ chr ':' :: w).drop (k + 1 + 1) = w := by
      rw [← hk, List.drop_append]
      simp
    have htake : (s ++ chr ':' :: w).take (k + 1) = s := by rw [← hk, List.take_left]
    simp only [idxOf?_append_cons hcolon, hk, hdrop, h, htake]

/-- What stands between the brackets: an address, and its `%interface`. -/
def Between (t scope : Bytes) : Prop :=
  scope = [] ∧ chr '%' ∉ cstr t ∨ scope.head? = some (chr '%') ∧ chr '%' ∉ t ∧ (0 : Byte) ∉ t

theorem exists_between (u : Bytes) : ∃ t scope, u = t ++ scope ∧ Between t scope := by
  cases hk : (cstr u).idxOf? (chr '%') with
  | none => exact ⟨u, [], by simp, Or.inl ⟨rfl, List.idxOf?_eq_none_iff.mp hk⟩⟩
  | some k =>
    obtain ⟨hsplit, hfirst⟩ := idxOf?_split hk
    obtain ⟨rest, hrest⟩ : cstr u <+: u := List.takeWhile_prefix _
    refine ⟨(cstr u).take k, chr '%' :: ((cstr u).drop (k + 1) ++ rest), ?_, Or.inr ⟨rfl, hfirst, fun h0 => ?_⟩⟩
    · rw [← List.cons_append, ← List.append_assoc, ← hsplit, hrest]
    · have hne := List.mem_takeWhile_imp (List.take_subset _ _ h0)
      simp at hne

/-- The address as it is printed, unless `buf` is too short for the `%interface`. -/
def addressText (inet : Inet) (x : List Byte) (scope : Bytes) : Option Bytes :=
  if scope ≠ [] ∧ (inet.ntop6 x).length + scope.length ≥ sizeofBuf6 then none
  else some (chr '[' :: (inet.ntop6 x ++ (scope ++ [chr ']'])))

theorem mem_cstr_append {d : Byte} (h : d ∈ cstr (s ++ t)) : d ∈ cstr s ∨ d ∈ cstr t := by
  unfold cstr at h
  rw [List.takeWhile_append] at h
  split at h
  · rename_i hfull
    have hs : cstr s = s := (List.takeWhile_prefix _).eq_of_length hfull
    rw [List.mem_append] at h
    rwa [hs]
  · exact Or.inl h

/-- **The address between the brackets.** -/
theorem normalizeBracket_eq (h : Between t scope) (hq : chr '%' ∉ cstr q) :
    normalizeBracket inet (chr '[' :: (t ++ scope ++ chr ']' :: q)) ((t ++ scope).length + 1) =
      (inet.pton6 (cstr t)).bind fun x => addressText inet x scope := by
  obtain ⟨rfl, ht⟩ | ⟨hscope, ht, hnul⟩ := h
  · have hpercent : (cstr (t ++ [] ++ chr ']' :: q)).idxOf? (chr '%') = none := by
      rw [List.idxOf?_eq_none_iff]
      intro hmem
      rw [List.append_nil] at hmem
      rcases mem_cstr_append hmem with hmem | hmem
      · exact ht hmem
      · have hcstr : cstr (chr ']' :: q) = chr ']' :: cstr q := List.takeWhile_cons_of_pos (by decide)
        rw [hcstr] at hmem
        rcases List.mem_cons.mp hmem with hmem | hmem
        · revert hmem
          decide
        · exact hq hmem
    unfold normalizeBracket
    rw [List.tail_cons, hpercent]
    simp only [Option.map_none, Option.getD_none, Nat.min_self, List.append_nil, List.take_succ_cons, List.drop_one,
      List.tail_cons, List.take_left]
    cases inet.pton6 (cstr t) with
    | none => rfl
    | some x => simp [addressText]
  · obtain ⟨r, rfl⟩ := List.head?_eq_some_iff.mp hscope
    have hcut : cstr (t ++ chr '%' :: r ++ chr ']' :: q) = t ++ chr '%' :: cstr (r ++ chr ']' :: q) := by
      have hall : ∀ d ∈ t, decide (d ≠ 0) = true := by
        intro d hd
        rw [decide_eq_true_eq]
        rintro rfl
        exact hnul hd
      rw [List.append_assoc, cstr, List.takeWhile_append_of_pos hall, List.cons_append,
        List.takeWhile_cons_of_pos (by decide)]
      rfl
    have hpercent : (cstr (t ++ chr '%' :: r ++ chr ']' :: q)).idxOf? (chr '%') = some t.length := by
      rw [hcut, idxOf?_append_cons ht]
    have hmin : min (t.length + 1) ((t ++ chr '%' :: r).length + 1) = t.length + 1 := by simp
    have hin : ¬t.length + 1 > (t ++ chr '%' :: r).length + 1 := by simp
    have hsize : (t ++ chr '%' :: r).length + 1 - (t.length + 1) = (chr '%' :: r).length := by simp
    unfold normalizeBracket
    rw [List.tail_cons, hpercent]
    have htext : ((t ++ chr '%' :: r ++ chr ']' :: q).take (t ++ chr '%' :: r).length).drop t.length = chr '%' :: r := by
      rw [List.take_left, List.drop_left]
    simp only [Option.map_some, Option.getD_some, hmin, List.take_succ_cons, List.drop_succ_cons, List.drop_zero, htext,
      if_neg hin, hsize]
    have htake : (t ++ chr '%' :: r ++ chr ']' :: q).take t.length = t := by
      rw [List.append_assoc, List.take_left]
    rw [htake, cstr_eq_self hnul]
    cases inet.pton6 t with
    | none => rfl
    | some x => simp [addressText]

/-- **`[...]` and a port.** -/
theorem normalize_bracket (h : Between t scope) (hne : t ++ scope ≠ []) (hq : IsPort q port)
    (hclosed : q = [] ∨ chr ']' ∉ t ++ scope ∧ q.getLast? ≠ some (chr ']')) :
    httpRequestHostNormalize inet (chr '[' :: (t ++ scope ++ chr ']' :: q)) =
      match (inet.pton6 (cstr t)).bind fun x => addressText inet x scope with
      | none => (false, chr '[' :: (t ++ scope ++ chr ']' :: q))
      | some host => (true, appendPort host port) := by
  have hfind : findBracket (chr '[' :: (t ++ scope ++ chr ']' :: q)) = some ((t ++ scope).length + 1, port) := by
    cases hq with
    | absent => exact findBracket_last _
    | @number w _ hw =>
      obtain ⟨hclosed, hlast⟩ := hclosed.resolve_left (List.cons_ne_nil _ _)
      exact findBracket_port hne hclosed hlast hw
  have hlen : ¬(chr '[' :: (t ++ scope ++ chr ']' :: q)).length ≤ 2 := by
    have hpos := List.length_pos_iff.mpr hne
    rw [List.length_cons, List.length_append, List.length_cons]
    omega
  unfold httpRequestHostNormalize
  rw [if_neg (by simp), if_neg hlen, hfind]
  dsimp only
  have hbracket : normalizeBracket inet (chr '[' :: (t ++ scope ++ chr ']' :: q)) ((t ++ scope).length + 1) =
      (inet.pton6 (cstr t)).bind fun x => addressText inet x scope := normalizeBracket_eq h hq.percent
  cases haddr : (inet.pton6 (cstr t)).bind fun x => addressText inet x scope with
  | none =>
    rw [haddr] at hbracket
    simp only [hbracket]
  | some host =>
    rw [haddr] at hbracket
    simp only [hbracket]

/-- **What is normalised, and to what.** -/
theorem normalize_cases (h : httpRequestHostNormalize inet b = (true, c)) :
    (∃ s q port, b = s ++ q ∧ s.head? ≠ some (chr '[') ∧ chr ':' ∉ s ∧ (s ≠ [] ∨ q = []) ∧ IsPort q port ∧
      c = appendPort (normalizeName inet s) port) ∨
    ∃ t scope q port x host, b = chr '[' :: (t ++ scope ++ chr ']' :: q) ∧ Between t scope ∧ IsPort q port ∧
      (q = [] ∨ chr ']' ∉ t ++ scope) ∧ inet.pton6 (cstr t) = some x ∧ addressText inet x scope = some host ∧
      c = appendPort host port := by
  by_cases hb : b.head? = some (chr '[')
  · right
    have hstep := h
    unfold httpRequestHostNormalize at hstep
    rw [if_neg (not_not_intro hb)] at hstep
    split at hstep
    · cases hstep
    · rename_i hlen
      cases hfind : findBracket b with
      | none => simp [hfind] at hstep
      | some found =>
        obtain ⟨bracket, port⟩ := found
        obtain ⟨u, q, rfl, rfl, hne, hq, hclosed⟩ := findBracket_split hb (by omega) hfind
        obtain ⟨t, scope, rfl, hbetween⟩ := exists_between u
        simp only [hfind, normalizeBracket_eq hbetween hq.percent] at hstep
        cases hread : inet.pton6 (cstr t) with
        | none => simp [hread] at hstep
        | some x =>
          cases htext : addressText inet x scope with
          | none => simp [hread, htext] at hstep
          | some host =>
            refine ⟨t, scope, q, port, x, host, rfl, hbetween, hq, hclosed, hread, htext, ?_⟩
            simpa [hread, htext] using hstep.symm
  · left
    have hstep := h
    unfold httpRequestHostNormalize at hstep
    rw [if_pos hb] at hstep
    cases hcolon : b.idxOf? (chr ':') with
    | none =>
      refine ⟨b, [], 0, by simp, hb, List.idxOf?_eq_none_iff.mp hcolon, Or.inr rfl, .absent, ?_⟩
      simpa [hcolon, appendPort] using hstep.symm
    | some k =>
      obtain ⟨hsplit, hfirst⟩ := idxOf?_split hcolon
      have hlt : k < b.length := (List.idxOf?_eq_some_iff.mp hcolon).1
      cases k with
      | zero => simp [hcolon] at hstep
      | succ k =>
        cases hread : readPort (b.drop (k + 1 + 1)) with
        | none => simp [hcolon, hread] at hstep
        | some port =>
          have hne : b.take (k + 1) ≠ [] := by
            intro hnil
            have hlength := congrArg List.length hnil
            rw [List.length_take_of_le (by omega)] at hlength
            simp at hlength
          refine ⟨b.take (k + 1), chr ':' :: b.drop (k + 1 + 1), port, hsplit, ?_, hfirst, Or.inl hne, .number hread, ?_⟩
          · rw [List.head?_take, if_neg (Nat.succ_ne_zero k)]
            exact hb
          · simpa [hcolon, hread] using hstep.symm

/-! ## Canonical addresses -/

/-- The bytes of an IPv6 address. -/
def inetChar (c : Byte) : Bool := lightIsxdigit c || c == chr ':' || c == chr '.'

/-- **What `inet_ntop` prints is read back**: an IPv4 address is digits and dots and starts with a digit, and
`inet_pton` reads nothing but hexadecimal digits, colons and dots. -/
structure Inet.Canonical (inet : Inet) : Prop where
  aton : ∀ s addr, inet.aton s = some addr → inet.aton (inet.ntop addr) = some addr
  ntop : ∀ addr, lightIsdigit ((inet.ntop addr).headD 0) = true ∧
    (inet.ntop addr).all (fun c => lightIsdigit c || c == chr '.') = true
  pton6 : ∀ s addr, inet.pton6 s = some addr → inet.pton6 (inet.ntop6 addr) = some addr
  text : ∀ s addr, inet.pton6 s = some addr → s ≠ [] ∧ s.all inetChar = true

section Canonical

variable (hinet : inet.Canonical)

include hinet

theorem not_mem_ntop (addr : UInt32) {d : Byte} (hd : (lightIsdigit d || d == chr '.') = false) : d ∉ inet.ntop addr :=
  fun hmem => by
    have hchar := List.all_eq_true.mp (hinet.ntop addr).2 d hmem
    rw [hd] at hchar
    cases hchar

theorem normalizeName_idem (s : Bytes) : normalizeName inet (normalizeName inet s) = normalizeName inet s := by
  by_cases hdigit : lightIsdigit (s.headD 0) = true
  · cases hread : inet.aton (cstr s) with
    | none =>
      have hname : normalizeName inet s = s := by rw [normalizeName, if_pos hdigit, hread]
      rw [hname, hname]
    | some addr =>
      have hname : normalizeName inet s = inet.ntop addr := by rw [normalizeName, if_pos hdigit, hread]
      have hcstr : cstr (inet.ntop addr) = inet.ntop addr := cstr_eq_self (not_mem_ntop hinet addr (by decide))
      rw [hname, normalizeName, if_pos (hinet.ntop addr).1, hcstr, hinet.aton _ _ hread]
  · have hname : normalizeName inet s = s := by rw [normalizeName, if_neg hdigit]
    rw [hname, hname]

theorem normalizeName_colon (h : chr ':' ∉ s) : chr ':' ∉ normalizeName inet s := by
  unfold normalizeName
  split
  · split
    · exact not_mem_ntop hinet _ (by decide)
    · exact h
  · exact h

theorem normalizeName_bracket (h : s.head? ≠ some (chr '[')) : (normalizeName inet s).head? ≠ some (chr '[') := by
  unfold normalizeName
  split
  · split
    · exact fun hhead => not_mem_ntop hinet _ (by decide) (List.mem_of_mem_head? hhead)
    · exact h
  · exact h

theorem normalizeName_ne_nil (h : s ≠ []) : normalizeName inet s ≠ [] := by
  unfold normalizeName
  split
  · split
    · rename_i addr _
      intro hnil
      have hdigit := (hinet.ntop addr).1
      rw [hnil] at hdigit
      revert hdigit
      decide
    · exact h
  · exact h

theorem not_mem_ntop6 {x : List Byte} (h : inet.pton6 t = some x) {d : Byte} (hd : inetChar d = false) :
    d ∉ inet.ntop6 x := fun hmem => by
  have hchar := List.all_eq_true.mp (hinet.text _ _ (hinet.pton6 _ _ h)).2 d hmem
  rw [hd] at hchar
  cases hchar

theorem ntop6_ne_nil {x : List Byte} (h : inet.pton6 t = some x) : inet.ntop6 x ≠ [] :=
  (hinet.text _ _ (hinet.pton6 _ _ h)).1

/-- **A second time, nothing changes.** -/
theorem normalize_idem (h : httpRequestHostNormalize inet b = (true, c)) :
    httpRequestHostNormalize inet c = (true, c) := by
  obtain ⟨s, q, port, rfl, hbracket, hcolon, hne, hq, rfl⟩ |
    ⟨t, scope, q, port, x, host, rfl, hbetween, hq, hclosed, hread, htext, rfl⟩ := normalize_cases h
  · rw [appendPort_eq]
    have hne' : normalizeName inet s ≠ [] ∨ portText port = [] := by
      refine hne.imp (normalizeName_ne_nil hinet) fun hnil => ?_
      subst hnil
      cases hq
      rfl
    rw [normalize_name (normalizeName_bracket hinet hbracket) (normalizeName_colon hinet hcolon) hne'
      (portText_isPort hq.le), normalizeName_idem hinet, appendPort_eq]
  · have hscope := htext
    unfold addressText at hscope
    split at hscope
    · cases hscope
    · obtain rfl := Option.some.inj hscope
      have hnul : (0 : Byte) ∉ inet.ntop6 x := not_mem_ntop6 hinet hread (by decide)
      have hpercent : chr '%' ∉ inet.ntop6 x := not_mem_ntop6 hinet hread (by decide)
      have hbetween' : Between (inet.ntop6 x) scope := by
        obtain ⟨rfl, -⟩ | ⟨hhead, -, -⟩ := hbetween
        · exact Or.inl ⟨rfl, by rwa [cstr_eq_self hnul]⟩
        · exact Or.inr ⟨hhead, hpercent, hnul⟩
      have hclosed' : portText port = [] ∨
          chr ']' ∉ inet.ntop6 x ++ scope ∧ (portText port).getLast? ≠ some (chr ']') := by
        rcases hclosed with rfl | hclosed
        · cases hq
          exact Or.inl rfl
        · right
          refine ⟨fun hmem => ?_, portText_last port⟩
          rcases List.mem_append.mp hmem with hmem | hmem
          · exact not_mem_ntop6 hinet hread (by decide) hmem
          · exact hclosed (List.mem_append_right t hmem)
      have hparts : appendPort (chr '[' :: (inet.ntop6 x ++ (scope ++ [chr ']']))) port =
          chr '[' :: (inet.ntop6 x ++ scope ++ chr ']' :: portText port) := by
        rw [appendPort_eq]
        simp
      have hne : inet.ntop6 x ++ scope ≠ [] := fun hnil =>
        ntop6_ne_nil hinet hread (List.append_eq_nil_iff.mp hnil).1
      have hagain : (inet.pton6 (cstr (inet.ntop6 x))).bind (fun x => addressText inet x scope) =
          some (chr '[' :: (inet.ntop6 x ++ (scope ++ [chr ']']))) := by
        rw [cstr_eq_self hnul, hinet.pton6 _ _ hread, Option.bind_some, htext]
      rw [hparts, normalize_bracket hbetween' hne (portText_isPort hq.le) hclosed', hagain, ← hparts]

end Canonical

/-! ## Spellings -/

/-- What a host stands for. -/
inductive Literal
  | name (s : Bytes)
  | ipv4 (addr : UInt32)
  | ipv6 (addr : List Byte) (scope : Bytes)
deriving DecidableEq, Repr

def Literal.text (inet : Inet) : Literal → Option Bytes
  | .name s => some s
  | .ipv4 addr => some (inet.ntop addr)
  | .ipv6 addr scope => addressText inet addr scope

/-- **A spelling of a literal and a port.** A name that `inet_aton` reads is an address, and a port stands behind the
first bracket that closes. -/
inductive IsHost (inet : Inet) : Bytes → Literal → Nat → Prop
  | name {s q : Bytes} {port : Nat} (hbracket : s.head? ≠ some (chr '[')) (hcolon : chr ':' ∉ s) (hne : s ≠ [])
      (hname : lightIsdigit (s.headD 0) = true → inet.aton s = none) (hq : IsPort q port) :
      IsHost inet (s ++ q) (.name s) port
  | ipv4 {s q : Bytes} {addr : UInt32} {port : Nat} (hdigit : lightIsdigit (s.headD 0) = true) (hcolon : chr ':' ∉ s)
      (hread : inet.aton s = some addr) (hq : IsPort q port) : IsHost inet (s ++ q) (.ipv4 addr) port
  | ipv6 {t scope q : Bytes} {addr : List Byte} {port : Nat} (hread : inet.pton6 t = some addr)
      (hscope : scope = [] ∨ scope.head? = some (chr '%')) (hclosed : q = [] ∨ chr ']' ∉ scope) (hq : IsPort q port) :
      IsHost inet (chr '[' :: (t ++ scope ++ chr ']' :: q)) (.ipv6 addr scope) port

/-- **A spelling is normalised to the text of its literal and the port in decimal.** -/
theorem normalize_isHost (hinet : inet.Canonical) {l : Literal} (h : IsHost inet b l port) (hnul : (0 : Byte) ∉ b) :
    httpRequestHostNormalize inet b =
      match l.text inet with
      | none => (false, b)
      | some host => (true, appendPort host port) := by
  cases h with
  | @name s q _ hbracket hcolon hne hname hq =>
    have hs : (0 : Byte) ∉ s := fun h0 => hnul (List.mem_append_left q h0)
    have hkept : normalizeName inet s = s := by
      unfold normalizeName
      split
      · rename_i hdigit
        rw [cstr_eq_self hs, hname hdigit]
      · rfl
    rw [normalize_name hbracket hcolon (Or.inl hne) hq, hkept]
    rfl
  | @ipv4 s q addr _ hdigit hcolon hread hq =>
    have hs : (0 : Byte) ∉ s := fun h0 => hnul (List.mem_append_left q h0)
    have haddr : normalizeName inet s = inet.ntop addr := by rw [normalizeName, if_pos hdigit, cstr_eq_self hs, hread]
    have hbracket : s.head? ≠ some (chr '[') := by
      intro hhead
      obtain ⟨v, rfl⟩ := List.head?_eq_some_iff.mp hhead
      rw [List.headD_cons] at hdigit
      revert hdigit
      decide
    have hne : s ≠ [] := by
      rintro rfl
      revert hdigit
      decide
    rw [normalize_name hbracket hcolon (Or.inl hne) hq, haddr]
    rfl
  | @ipv6 t scope q addr _ hread hscope hclosed hq =>
    have ht : (0 : Byte) ∉ t := fun h0 => hnul (by simp [h0])
    have hqnul : (0 : Byte) ∉ q := fun h0 => hnul (by simp [h0])
    have htext : ∀ d ∈ t, inetChar d = true := List.all_eq_true.mp (hinet.text _ _ hread).2
    have hout : ∀ d, inetChar d = false → d ∉ t := fun d hd hmem => by
      rw [htext d hmem] at hd
      cases hd
    have hpercent : chr '%' ∉ t := hout _ (by decide)
    have hbetween : Between t scope := by
      refine hscope.imp (fun h => ⟨h, ?_⟩) fun h => ⟨h, hpercent, ht⟩
      rwa [cstr_eq_self ht]
    have hne : t ++ scope ≠ [] := fun hnil => (hinet.text _ _ hread).1 (List.append_eq_nil_iff.mp hnil).1
    have hlast : q = [] ∨ chr ']' ∉ t ++ scope ∧ q.getLast? ≠ some (chr ']') := by
      refine hclosed.imp_right fun h => ⟨?_, hq.last hqnul⟩
      rw [List.mem_append, not_or]
      exact ⟨hout _ (by decide), h⟩
    rw [normalize_bracket hbetween hne hq hlast, cstr_eq_self ht, hread]
    rfl

/-- **A host that is normalised is a spelling.** -/
theorem isHost_of_normalize (hne : b ≠ []) (hnul : (0 : Byte) ∉ b) (h : httpRequestHostNormalize inet b = (true, c)) :
    ∃ l port, IsHost inet b l port := by
  obtain ⟨s, q, port, rfl, hbracket, hcolon, hs, hq, -⟩ |
    ⟨t, scope, q, port, x, host, rfl, hbetween, hq, hclosed, hread, -, -⟩ := normalize_cases h
  · have hsnul : (0 : Byte) ∉ s := fun h0 => hnul (List.mem_append_left q h0)
    have hs' : s ≠ [] := by
      rintro rfl
      exact hne (by simpa using hs)
    by_cases hdigit : lightIsdigit (s.headD 0) = true
    · cases hread : inet.aton s with
      | none => exact ⟨.name s, port, .name hbracket hcolon hs' (fun _ => hread) hq⟩
      | some addr => exact ⟨.ipv4 addr, port, .ipv4 hdigit hcolon hread hq⟩
    · exact ⟨.name s, port, .name hbracket hcolon hs' (fun h => absurd h hdigit) hq⟩
  · have ht : (0 : Byte) ∉ t := by
      intro h0
      simp [h0] at hnul
    refine ⟨.ipv6 x scope, port, .ipv6 (by rwa [cstr_eq_self ht] at hread) ?_ ?_ hq⟩
    · exact hbetween.imp And.left And.left
    · exact hclosed.imp_right fun h hmem => h (List.mem_append_right t hmem)

/-- **`http_request_host_normalize` computes a normal form.** -/
theorem normalize_canonical (hinet : inet.Canonical) (b : Bytes) :
    (∀ c, InPlace.httpRequestHostNormalize inet b = (true, c) →
        InPlace.httpRequestHostNormalize inet c = (true, c)) ∧
      (∀ c, InPlace.httpRequestHostNormalize inet b = (false, c) → c = b) ∧
      ((0 : Byte) ∉ b → (∀ l port, IsHost inet b l port → ∀ b', (0 : Byte) ∉ b' → IsHost inet b' l port →
        (InPlace.httpRequestHostNormalize inet b').1 = (InPlace.httpRequestHostNormalize inet b).1 ∧
          ((InPlace.httpRequestHostNormalize inet b).1 = true →
            (InPlace.httpRequestHostNormalize inet b').2 = (InPlace.httpRequestHostNormalize inet b).2)) ∧
        (b ≠ [] → (InPlace.httpRequestHostNormalize inet b).1 = true → ∃ l port, IsHost inet b l port)) := by
  simp only [inPlace_eq]
  refine ⟨fun c h => normalize_idem hinet h, fun c h => ?_, fun hnul => ⟨fun l port h b' hnul' h' => ?_, fun hne h => ?_⟩⟩
  · unfold httpRequestHostNormalize at h
    split at h
    · split at h
      · cases h
      · exact (Prod.mk.inj h).2.symm
      · split at h
        · exact (Prod.mk.inj h).2.symm
        · cases h
    · split at h
      · exact (Prod.mk.inj h).2.symm
      · split at h
        · exact (Prod.mk.inj h).2.symm
        · split at h
          · exact (Prod.mk.inj h).2.symm
          · cases h
  · rw [normalize_isHost hinet h hnul, normalize_isHost hinet h' hnul']
    cases l.text inet with
    | none => simp
    | some host => simp
  · exact isHost_of_normalize hne hnul (Prod.ext h rfl)

/-- The functions of `arpa/inet.h` on spellings of the loopback addresses. -/
def loopback : Inet where
  aton s := if s = ascii "127.0.0.1" ∨ s = ascii "0x7F.1" then some 0x7F000001 else none
  ntop _ := ascii "127.0.0.1"
  pton6 s := if s = ascii "::1" ∨ s = ascii "0:0:0:0:0:0:0:1" then some (List.replicate 15 0 ++ [1]) else none
  ntop6 _ := ascii "::1"

theorem loopback_canonical : loopback.Canonical where
  aton s addr h := by
    obtain rfl : addr = 0x7F000001 := by
      unfold loopback at h
      simp only [Option.ite_none_right_eq_some, Option.some.injEq] at h
      exact h.2.symm
    decide
  ntop _ := by
    show lightIsdigit ((ascii "127.0.0.1").headD 0) = true ∧
      (ascii "127.0.0.1").all (fun c => lightIsdigit c || c == chr '.') = true
    decide
  pton6 s addr h := by
    obtain rfl : addr = List.replicate 15 0 ++ [1] := by
      unfold loopback at h
      simp only [Option.ite_none_right_eq_some, Option.some.injEq] at h
      exact h.2.symm
    decide
  text s addr h := by
    unfold loopback at h
    simp only [Option.ite_none_right_eq_some, Option.some.injEq] at h
    obtain ⟨rfl | rfl, -⟩ := h <;> decide

/-- Two spellings of one address and port. -/
theorem normalize_loopback :
    InPlace.httpRequestHostNormalize loopback (ascii "0x7F.1:0x50") = (true, ascii "127.0.0.1:80") ∧
      InPlace.httpRequestHostNormalize loopback (ascii "127.0.0.1:80") = (true, ascii "127.0.0.1:80") ∧
      InPlace.httpRequestHostNormalize loopback (ascii "[0:0:0:0:0:0:0:1%eth0]:") = (true, ascii "[::1%eth0]") := by
  have hname : InPlace.httpRequestHostNormalize loopback (ascii "0x7F.1:0x50") = (true, ascii "127.0.0.1:80") := by
    decide
  exact ⟨hname, (normalize_canonical loopback_canonical _).1 _ hname, by decide⟩

/-- The letters of a name are kept. -/
theorem case_kept :
    (ascii "Example").map toLower = (ascii "example").map toLower ∧
      InPlace.httpRequestHostNormalize loopback (ascii "Example") = (true, ascii "Example") ∧
      InPlace.httpRequestHostNormalize loopback (ascii "example") = (true, ascii "example") ∧
      ascii "Example" ≠ ascii "example" := by
  decide

end Lighttpd.Request
