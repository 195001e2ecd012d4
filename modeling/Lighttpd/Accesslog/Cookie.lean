import Lighttpd.Accesslog.Escape
import Lighttpd.Request.Headers

/-!
# Cookies in the access log (`mod_accesslog.c`)

The field `%{name}C` looks for a cookie in the value of the header field `Cookie`. What is not the cookie is skipped up
to the next blank, and not up to the next semicolon.

- `cookieLoop_reached`: the scan goes from one place to the next, as `Reached` says;
- `cookieScan_named`, `cookieScan_nil`, `cookieScan_else`: it ends at a place with the name, behind the end of the value,
  or without a cookie;
- `cookieText_iff`: when the value of the first cookie with the name is logged.
-/

namespace Lighttpd.Accesslog
open Request

/-! ## The scan -/

/-- `while (*str == ' ' || *str == '\t') ++str`. -/
def skipBlanks (s : Bytes) : Bytes := s.dropWhile isWs

/-- `do { --str; } while (str > v && (*str == ' ' || *str == '\t'))`, from the place `i` on. -/
def valueEnd (v : Bytes) : Nat → Nat
  | 0 => 0
  | i + 1 => if isWs (v.getD (i + 1) 0) then valueEnd v i else i + 1

/-- The loop over the value, which is what is left of it. The result is `none` where a character behind the NUL is read;
otherwise it is the value of the cookie, if there is one. The first argument bounds the number of rounds. -/
def cookieLoop (name : Bytes) : Nat → Bytes → Option (Option Bytes)
  | 0, _ => none
  | fuel + 1, str =>
    let str := skipBlanks str
    if (name ++ [chr '=']).isPrefixOf str then
      let v := str.drop (name.length + 1)
      let len := (v.takeWhile (· ≠ chr ';')).length
      if len = 0 then some none else some (some (v.take (valueEnd v (len - 1) + 1)))
    else
      match str with
      | [] => none -- `++str` goes behind the NUL
      | _ :: str =>
        match skipBlanks (str.dropWhile fun c => !isWs c) with
        | 59 :: str => cookieLoop name fuel str
        | _ => some none

def cookieScan (name value : Bytes) : Option (Option Bytes) := cookieLoop name ((cstr value).length + 1) (cstr value)

/-- `FORMAT_COOKIE`: what is appended to the log, for the value of the header field. -/
def cookieText (name value : Bytes) : Option Bytes :=
  (cookieScan name value).map fun cookie => (cookie.map escape).getD []

/-! ## The cookies of a list -/

/-- A text without the blanks around it. -/
def trim (s : Bytes) : Bytes := (s.dropWhile isWs).rdropWhile isWs

/-- The name and the value of one item of the list, if it has a name. -/
def cookieOf (item : Bytes) : Option (Bytes × Bytes) :=
  let item := item.dropWhile isWs
  if chr '=' ∈ item then
    some (item.takeWhile (· ≠ chr '='), trim ((item.dropWhile (· ≠ chr '=')).drop 1))
  else none

/-- The cookies of a list that is separated by semicolons. -/
def cookies (list : Bytes) : List (Bytes × Bytes) := (list.splitOn (chr ';')).filterMap cookieOf

def cookieValue (name list : Bytes) : Bytes := (((cookies list).find? fun c => c.1 == name).map Prod.snd).getD []

example : cookies (ascii "a=1; b = x y ;; c") = [(ascii "a", ascii "1"), (ascii "b ", ascii "x y")] := by decide

/-! ## The places of the scan -/

/-- The text begins with the name and `=`. -/
def Named (name t : Bytes) : Prop := name ++ [chr '='] <+: t

/-- **The places of a list that the scan gets to**: the first word; and behind one that does not begin with the name, if
it is followed by blanks and a semicolon, the text behind this semicolon. -/
inductive Reached (name list : Bytes) : Bytes → Prop
  | first : Reached name list (skipBlanks list)
  | next {word blanks t : Bytes} (h : Reached name list (word ++ blanks ++ chr ';' :: t))
      (hname : ¬ Named name (word ++ blanks ++ chr ';' :: t)) (hword : word ≠ []) (hplain : ∀ c ∈ word, isWs c = false)
      (hblank : blanks ≠ []) (hblanks : ∀ c ∈ blanks, isWs c = true) : Reached name list (skipBlanks t)

def valueAt (name t : Bytes) : Bytes := (t.drop (name.length + 1)).takeWhile (· ≠ chr ';')

/-- The value at a place as it is logged: the last blanks are cut away, but not the first character. -/
def loggedAt (name t : Bytes) : Option Bytes :=
  if valueAt name t = [] then none
  else some ((t.drop (name.length + 1)).take (valueEnd (t.drop (name.length + 1)) ((valueAt name t).length - 1) + 1))

variable {name list t : Bytes}

theorem skipBlanks_skipBlanks (s : Bytes) : skipBlanks (skipBlanks s) = skipBlanks s :=
  List.dropWhile_idempotent isWs s

theorem Reached.skipBlanks (h : Reached name list t) : skipBlanks t = t := by
  cases h with
  | first => exact skipBlanks_skipBlanks list
  | next => exact skipBlanks_skipBlanks _

variable {fuel : Nat} {value : Bytes}

theorem cookieLoop_named (h : Named name t) (hskip : skipBlanks t = t) :
    cookieLoop name (fuel + 1) t = some (loggedAt name t) := by
  have hprefix : (name ++ [chr '=']).isPrefixOf t = true := List.isPrefixOf_iff_prefix.mpr h
  unfold cookieLoop loggedAt valueAt
  simp only [hskip, hprefix, if_true, List.length_eq_zero_iff]
  split_ifs <;> rfl

theorem cookieLoop_nil : cookieLoop name (fuel + 1) [] = none := by
  have hprefix : (name ++ [chr '=']).isPrefixOf [] = false := by
    cases name <;> rfl
  unfold cookieLoop
  simp [skipBlanks, hprefix]

theorem cookieLoop_word {word rest : Bytes} (hname : ¬ Named name (word ++ rest)) (hword : word ≠ [])
    (hplain : ∀ c ∈ word, isWs c = false) (hrest : ∀ c ∈ rest.head?, isWs c = true) :
    cookieLoop name (fuel + 1) (word ++ rest) =
      match skipBlanks rest with
      | 59 :: str => cookieLoop name fuel str
      | _ => some none := by
  obtain ⟨c, word, rfl⟩ := List.exists_cons_of_ne_nil hword
  rw [List.forall_mem_cons] at hplain
  have hskip : skipBlanks (c :: (word ++ rest)) = c :: (word ++ rest) := by
    simp [skipBlanks, hplain.1]
  have hprefix : (name ++ [chr '=']).isPrefixOf (c :: (word ++ rest)) = false := by
    rw [← Bool.not_eq_true, List.isPrefixOf_iff_prefix]
    exact hname
  have hdrop : (word ++ rest).dropWhile (fun c => !isWs c) = rest := by
    rw [List.dropWhile_append_of_pos (fun c hc => by simp [hplain.2 c hc])]
    cases rest with
    | nil => rfl
    | cons d rest => simp [hrest d rfl]
  rw [List.cons_append, cookieLoop]
  simp only [hskip, hprefix, hdrop]
  rfl

theorem cookieLoop_skipBlanks (fuel : Nat) (s : Bytes) :
    cookieLoop name fuel (skipBlanks s) = cookieLoop name fuel s := by
  cases fuel with
  | zero => rfl
  | succ fuel => rw [cookieLoop, cookieLoop, skipBlanks_skipBlanks]

theorem length_skipBlanks_le (s : Bytes) : (skipBlanks s).length ≤ s.length :=
  (List.dropWhile_sublist isWs).length_le

theorem skipBlanks_semicolon {blanks : Bytes} (h : ∀ c ∈ blanks, isWs c = true) (t : Bytes) :
    skipBlanks (blanks ++ chr ';' :: t) = chr ';' :: t := by
  unfold skipBlanks
  rw [List.dropWhile_append_of_pos h]
  rfl

/-! ## What the scan ends with -/

/-- **The scan goes from one place to the next.** -/
theorem cookieLoop_reached (h : Reached name list t) :
    ∃ fuel, t.length < fuel ∧ cookieLoop name (list.length + 1) list = cookieLoop name fuel t := by
  induction h with
  | first =>
    exact ⟨list.length + 1, Nat.lt_succ_of_le (length_skipBlanks_le list), (cookieLoop_skipBlanks _ list).symm⟩
  | @next word blanks t _ hname hword hplain hblank hblanks ih =>
    obtain ⟨fuel, hlt, heq⟩ := ih
    obtain ⟨fuel, rfl⟩ : ∃ f, fuel = f + 1 := ⟨fuel - 1, by omega⟩
    have hhead : ∀ c ∈ (blanks ++ chr ';' :: t).head?, isWs c = true := by
      obtain ⟨b, blanks, rfl⟩ := List.exists_cons_of_ne_nil hblank
      rintro c ⟨⟩
      exact hblanks _ List.mem_cons_self
    refine ⟨fuel, ?_, ?_⟩
    · have := length_skipBlanks_le t
      simp only [List.length_append, List.length_cons] at hlt
      omega
    · rw [heq, cookieLoop_skipBlanks, List.append_assoc]
      rw [List.append_assoc] at hname
      rw [cookieLoop_word hname hword hplain hhead, skipBlanks_semicolon hblanks]
      rfl

/-- Where the scan finds nothing and reads nothing behind the value, it ends without a cookie. -/
theorem cookieLoop_else (hnamed : ∀ u, Reached name list u → ¬ Named name u) (hnil : ¬ Reached name list [])
    (fuel : Nat) : ∀ t, Reached name list t → t.length < fuel → cookieLoop name fuel t = some none := by
  induction fuel with
  | zero => exact fun t _ hlt => absurd hlt (Nat.not_lt_zero _)
  | succ fuel ih =>
    intro t h hlt
    -- the word at this place, and what is behind it
    obtain ⟨word, rest, hword, hrest⟩ : ∃ word rest, word = t.takeWhile (!isWs ·) ∧ rest = t.dropWhile (!isWs ·) :=
      ⟨_, _, rfl, rfl⟩
    obtain rfl : word ++ rest = t := by
      rw [hword, hrest, List.takeWhile_append_dropWhile]
    have hplain : ∀ c ∈ word, isWs c = false := by
      intro c hc
      rw [hword] at hc
      simpa using List.mem_takeWhile_imp hc
    have hhead : ∀ c ∈ rest.head?, isWs c = true := by
      intro c hc
      have := List.head?_dropWhile_not (!isWs ·) (word ++ rest)
      rw [← hrest] at this
      grind
    have hne : word ≠ [] := by
      rintro rfl
      cases rest with
      | nil => exact hnil h
      | cons c rest =>
        have hskip := h.skipBlanks
        have := (length_skipBlanks_le rest)
        simp only [List.nil_append, skipBlanks, List.dropWhile_cons, hhead c rfl, if_true] at hskip
        have hlen := congrArg List.length hskip
        simp only [skipBlanks, List.length_cons] at this hlen
        omega
    rw [cookieLoop_word (hnamed _ h) hne hplain hhead]
    split
    · next str hstr =>
      -- a semicolon behind blanks
      have hsplit : rest.takeWhile isWs ++ chr ';' :: str = rest := by
        have : rest.takeWhile isWs ++ rest.dropWhile isWs = rest := List.takeWhile_append_dropWhile
        rwa [show rest.dropWhile isWs = chr ';' :: str from hstr] at this
      have hblank : rest.takeWhile isWs ≠ [] := by
        intro hnil
        rw [hnil, List.nil_append] at hsplit
        have := hhead (chr ';') (by rw [← hsplit]; rfl)
        exact absurd this (by decide)
      rw [← hsplit, ← List.append_assoc] at h hlt
      rw [← cookieLoop_skipBlanks]
      refine ih _ (.next h (hnamed _ h) hne hplain hblank fun c hc => List.mem_takeWhile_imp hc) ?_
      have := length_skipBlanks_le str
      simp only [List.length_append, List.length_cons] at hlt
      omega
    · rfl

theorem cookieScan_named (h : Reached name (cstr value) t) (hname : Named name t) :
    cookieScan name value = some (loggedAt name t) := by
  obtain ⟨fuel, hlt, heq⟩ := cookieLoop_reached h
  obtain ⟨fuel, rfl⟩ : ∃ f, fuel = f + 1 := ⟨fuel - 1, by omega⟩
  exact heq.trans (cookieLoop_named hname h.skipBlanks)

theorem cookieScan_nil (h : Reached name (cstr value) []) : cookieScan name value = none := by
  obtain ⟨fuel, hlt, heq⟩ := cookieLoop_reached h
  obtain ⟨fuel, rfl⟩ : ∃ f, fuel = f + 1 := ⟨fuel - 1, by omega⟩
  exact heq.trans cookieLoop_nil

theorem cookieScan_else (hnamed : ∀ t, Reached name (cstr value) t → ¬ Named name t)
    (hnil : ¬ Reached name (cstr value) []) : cookieScan name value = some none := by
  obtain ⟨fuel, hlt, heq⟩ := cookieLoop_reached (@Reached.first name (cstr value))
  exact heq.trans (cookieLoop_else hnamed hnil fuel _ .first hlt)

/-! ## The value that is logged -/

theorem take_valueEnd (c : Byte) (s rest : Bytes) :
    (c :: s ++ rest).take (valueEnd (c :: s ++ rest) s.length + 1) = c :: s.rdropWhile isWs := by
  induction s using List.reverseRecOn generalizing rest with
  | nil => simp [valueEnd]
  | append_singleton s d ih =>
    have hget : (c :: (s ++ [d]) ++ rest).getD (s.length + 1) 0 = d := by
      simp
    rw [List.length_append, List.length_singleton, valueEnd, hget, List.rdropWhile_concat]
    split_ifs with hd
    · simpa using ih (d :: rest)
    · exact List.take_left' (by simp)

theorem loggedAt_eq (name t : Bytes) :
    loggedAt name t = match valueAt name t with
      | [] => none
      | c :: s => some (c :: s.rdropWhile isWs) := by
  unfold loggedAt
  cases h : valueAt name t with
  | nil => rfl
  | cons c s =>
    have hsplit : (c :: s) ++ (t.drop (name.length + 1)).dropWhile (· ≠ chr ';') = t.drop (name.length + 1) := by
      rw [← h]
      exact List.takeWhile_append_dropWhile
    rw [← hsplit, if_neg (List.cons_ne_nil c s), List.length_cons, Nat.add_sub_cancel, take_valueEnd]

theorem trim_head (s : Bytes) : ∀ c ∈ (trim s).head?, isWs c = false := by
  intro c hc
  obtain ⟨u, hu⟩ : trim s <+: s.dropWhile isWs := List.rdropWhile_prefix isWs _
  have hhead : (s.dropWhile isWs).head? = some c := by
    rw [← hu, List.head?_append, Option.mem_def.mp hc, Option.some_or]
  have := List.head?_dropWhile_not isWs s
  rwa [hhead] at this

theorem trim_cons {c : Byte} (hc : isWs c = false) (s : Bytes) : trim (c :: s) = c :: s.rdropWhile isWs := by
  unfold trim
  rw [List.dropWhile_cons_of_neg (by simp [hc])]
  induction s using List.reverseRecOn with
  | nil => simp [List.rdropWhile_singleton, hc]
  | append_singleton s d ih =>
    rw [← List.cons_append, List.rdropWhile_concat, List.rdropWhile_concat, ih]
    split_ifs <;> rfl

theorem cookieValue_head (name list : Bytes) : ∀ c ∈ (cookieValue name list).head?, isWs c = false := by
  unfold cookieValue
  cases h : (cookies list).find? fun c => c.1 == name with
  | none => simp
  | some cookie =>
    obtain ⟨item, -, hitem⟩ := List.mem_filterMap.mp (List.mem_of_find?_eq_some h)
    unfold cookieOf at hitem
    dsimp only at hitem
    split_ifs at hitem
    obtain rfl := Option.some.inj hitem
    exact trim_head _

/-- A value that begins with a blank is not logged as a value of the list; any other one is logged trimmed. -/
theorem loggedAt_getD {v : Bytes} (hv : ∀ c ∈ v.head?, isWs c = false) :
    (loggedAt name t).getD [] = v ↔ (∀ c ∈ (valueAt name t).head?, isWs c = false) ∧ trim (valueAt name t) = v := by
  rw [loggedAt_eq]
  cases valueAt name t with
  | nil => simp [trim]
  | cons c s =>
    cases hc : isWs c with
    | true =>
      constructor
      · rintro rfl
        exact absurd (hv c rfl) (by simp [hc])
      · rintro ⟨h, -⟩
        exact absurd (h c rfl) (by simp [hc])
    | false =>
      simp [trim_cons hc, hc]

/-! ## The field -/

/-- The field logs the value of the first cookie with the name, and nothing behind the value of the header field is
read. -/
def CookieLogged (name value : Bytes) : Prop :=
  cookieText name value = some (escape (cookieValue name (cstr value)))

instance (name value : Bytes) : Decidable (CookieLogged name value) :=
  inferInstanceAs (Decidable (cookieText name value = some (escape (cookieValue name (cstr value)))))

/-- **When the value of the first cookie is logged**: the scan gets to a place with the name where the value of this
cookie stands, without a blank in front of it; or it gets neither to a place with the name nor behind the end of the
value, and there is no such value. -/
theorem cookieText_iff (name value : Bytes) :
    CookieLogged name value ↔
      (∃ t, Reached name (cstr value) t ∧ Named name t ∧ (∀ c ∈ (valueAt name t).head?, isWs c = false) ∧
        trim (valueAt name t) = cookieValue name (cstr value)) ∨
      ((∀ t, Reached name (cstr value) t → ¬ Named name t) ∧ ¬ Reached name (cstr value) [] ∧
        cookieValue name (cstr value) = []) := by
  have hiff : CookieLogged name value ↔
      (cookieScan name value).map (·.getD []) = some (cookieValue name (cstr value)) := by
    have hesc : ∀ cookie : Option Bytes, (cookie.map escape).getD [] = escape (cookie.getD []) := by
      rintro (_ | _) <;> rfl
    unfold CookieLogged cookieText
    simp only [hesc, Option.map_eq_some_iff]
    constructor
    · rintro ⟨cookie, hcookie, heq⟩
      exact ⟨cookie, hcookie, escape_inj heq⟩
    · rintro ⟨cookie, hcookie, heq⟩
      exact ⟨cookie, hcookie, congrArg escape heq⟩
  rw [hiff]
  by_cases hnamed : ∃ t, Reached name (cstr value) t ∧ Named name t
  · obtain ⟨t, ht, hname⟩ := hnamed
    have hscan : ∀ u, Reached name (cstr value) u → Named name u →
        cookieScan name value = some (loggedAt name u) := by
      intro u hu hname
      exact cookieScan_named hu hname
    constructor
    · intro h
      rw [hscan t ht hname, Option.map_some, Option.some_inj] at h
      exact .inl ⟨t, ht, hname, (loggedAt_getD (cookieValue_head _ _)).mp h⟩
    · rintro (⟨u, hu, hname, hv⟩ | ⟨hno, -⟩)
      · rw [hscan u hu hname, Option.map_some, Option.some_inj]
        exact (loggedAt_getD (cookieValue_head _ _)).mpr hv
      · exact absurd hname (hno t ht)
  · have hno : ∀ t, Reached name (cstr value) t → ¬ Named name t := fun t ht hname => hnamed ⟨t, ht, hname⟩
    by_cases hnil : Reached name (cstr value) []
    · rw [cookieScan_nil hnil]
      constructor
      · intro h
        exact absurd h (by simp)
      · rintro (⟨t, ht, hname, -⟩ | ⟨-, hnot, -⟩)
        · exact absurd hname (hno t ht)
        · exact absurd hnil hnot
    · rw [cookieScan_else hno hnil]
      constructor
      · intro h
        exact .inr ⟨hno, hnil, (Option.some.inj h).symm⟩
      · rintro (⟨t, ht, hname, -⟩ | ⟨-, -, hv⟩)
        · exact absurd hname (hno t ht)
        · rw [hv]
          rfl

/-- The second cookie of a list is missed where no blank stands in front of the semicolon. -/
theorem cookieText_misses : ¬ CookieLogged (ascii "b") (ascii "a=1; b=2") := by decide

end Lighttpd.Accesslog
