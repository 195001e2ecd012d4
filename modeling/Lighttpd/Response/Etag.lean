import Lighttpd.Base.Buffer
import Lighttpd.Base.Itostr

/-!
# Entity tags (`etag.c`)

`etag_is_equal` looks for a tag in the value of `If-None-Match`. The scan of a well-formed list is described member by
member: `scan_text` for the text of a tag, `scan_tag` for a member, `scan_list` for the list. A member whose text is a
proper prefix of the wanted one ends the scan, so that what stands behind it is not looked at (`etagIsEqual_iff`).
-/

namespace Lighttpd.Etag

/-! ## The source -/

/-- The states of `etag_is_equal`; `tok` is what is left of the tag. -/
inductive State
  | start
  | check (tok : Bytes)
  | checkQuoted (tok : Bytes)
  | skip
  | skipQuoted
  | tail
deriving DecidableEq, Repr

/-- What a pointer into a C string points to. -/
def deref (s : Bytes) : Byte := s.headD 0

def isSpace (c : Byte) : Bool := c == chr ' ' || c == chr '\t' || c == chr '\r' || c == chr '\n'

/-- One turn of the loop but for a `W` in `START`; `error` is a `return`. -/
def step (tokStart : Bytes) (c : Byte) : State → Except Bool State
  | .start =>
    if c = chr '"' then .ok (.check tokStart)
    else if isSpace c || c = chr ',' then .ok .start
    else .error false
  | .check tok =>
    let isEqual := deref tok ≠ 0 ∧ deref tok = c
    let tok := tok.tail
    if c = chr '\\' then .ok (if isEqual then .checkQuoted tok else .skipQuoted)
    else if c = chr '"' then
      if deref tok ≠ 0 then .error false
      else if isEqual then .error true
      else .ok .tail
    else .ok (if isEqual then .check tok else .skip)
  | .checkQuoted tok => .ok (if deref tok = 0 ∨ deref tok ≠ c then .skip else .check tok.tail)
  | .skip => .ok (if c = chr '\\' then .skipQuoted else if c = chr '"' then .tail else .skip)
  | .skipQuoted => .ok .skip
  | .tail => if c = chr ',' then .ok .start else if isSpace c then .ok .tail else .error false

def scan (tokStart : Bytes) (weakOk : Bool) : State → Bytes → Bool
  | _, [] => false
  | state, c :: rest =>
    if state = .start ∧ c = chr 'W' then
      -- `*++current` twice
      match rest with
      | slash :: quote :: rest =>
        if slash ≠ chr '/' then false
        else if quote ≠ chr '"' then false
        else scan tokStart weakOk (if weakOk then .check tokStart else .skip) rest
      | _ => false
    else
      match step tokStart c state with
      | .error r => r
      | .ok state => scan tokStart weakOk state rest

def etagIsEqual (etag : Option Buffer) (line : Bytes) (weakOk : Bool) : Bool :=
  if cstr line = [chr '*'] then true
  else
    match etag with
    | none => false
    | some etag =>
      if etag.stringIsEmpty then false
      else
        let tokStart := cstr etag.str
        if deref tokStart = chr 'W' ∧ (!weakOk ∨ deref tokStart.tail ≠ chr '/') then false
        else
          let tokStart := if deref tokStart = chr 'W' then tokStart.drop 2 else tokStart
          if deref tokStart ≠ chr '"' then false else scan tokStart.tail weakOk .start (cstr line)

/-- The hash of `etag_mutate`; a `char` is signed. -/
def hash (s : Bytes) : UInt32 :=
  s.foldl (fun h c => (h <<< 5) ^^^ (h >>> 27) ^^^ c.toInt8.toInt32.toUInt32) 0

def etagMutate (b etag : Buffer) : Buffer :=
  ((b.reset.copyStringLen (ascii "\"")).appendStringLen (liItostrn (hash etag.str).toNat)).appendStringLen (ascii "\"")

/-! ## Lists of entity tags -/

/-- The text between the quotes: a backslash quotes the character behind it. -/
inductive Text : Bytes → Prop
  | nil : Text []
  | char {c : Byte} {s : Bytes} : c ≠ 0 → c ≠ chr '"' → c ≠ chr '\\' → Text s → Text (c :: s)
  | quoted {c : Byte} {s : Bytes} : c ≠ 0 → Text s → Text (chr '\\' :: c :: s)

/-- A strong or weak entity tag. -/
structure EntityTag where
  weak : Bool
  text : Bytes
  isText : Text text

/-- The tag without the mark of a weak one. -/
def EntityTag.quoted (t : EntityTag) : Bytes := chr '"' :: (t.text ++ [chr '"'])

def EntityTag.print (t : EntityTag) : Bytes := if t.weak then ascii "W/" ++ t.quoted else t.quoted

/-- What may stand in front of a member: space, and the commas of empty members. -/
def isSeparator (c : Byte) : Bool := isSpace c || c == chr ','

/-- **A comma-separated list of entity tags with optional space.** -/
inductive TagList : List EntityTag → Bytes → Prop
  | nil {sep : Bytes} : sep.all isSeparator → TagList [] sep
  | last {sep ws : Bytes} (t : EntityTag) : sep.all isSeparator → ws.all isSpace → TagList [t] (sep ++ (t.print ++ ws))
  | cons {sep ws s : Bytes} {ts : List EntityTag} (t : EntityTag) : sep.all isSeparator → ws.all isSpace → TagList ts s →
    TagList (t :: ts) (sep ++ (t.print ++ (ws ++ chr ',' :: s)))

/-- A well-formed value of `If-None-Match`: `*`, or a list. -/
inductive IfNoneMatch : Option (List EntityTag) → Bytes → Prop
  | any : IfNoneMatch none (ascii "*")
  | list {ts : List EntityTag} {s : Bytes} : TagList ts s → IfNoneMatch (some ts) s

/-- The member is compared at all. -/
def EntityTag.Considered (t : EntityTag) (weakOk : Bool) : Prop := t.weak = true → weakOk = true

def EntityTag.Equals (t : EntityTag) (etag : Bytes) (weakOk : Bool) : Prop := t.Considered weakOk ∧ t.quoted = etag

/-- **The ETag is in the list.** -/
def Listed (etag : Bytes) (weakOk : Bool) : Option (List EntityTag) → Prop
  | none => True
  | some ts => ∃ t ∈ ts, t.Equals etag weakOk

/-- A member that is compared, and whose text is a proper prefix of that of the ETag, stands before the first member
that equals the ETag. -/
def Cut (etag : Bytes) (weakOk : Bool) : Option (List EntityTag) → Prop
  | none => False
  | some ts => ∃ before t behind, ts = before ++ t :: behind ∧ t.Considered weakOk ∧
    chr '"' :: t.text <+: etag ∧ t.quoted ≠ etag ∧ (∀ u ∈ before, ¬ u.Equals etag weakOk) ∧
    ∃ u ∈ behind, u.Equals etag weakOk

/-- What `etag_mutate` makes: digits in quotes. -/
def Mutated (etag : Bytes) : Prop := ∃ digits, etag = chr '"' :: (digits ++ [chr '"']) ∧
  ∀ c ∈ digits, Netstring.isDigit c = true

theorem etagMutate_mutated (b etag : Buffer) : Mutated (etagMutate b etag).str :=
  ⟨liItostrn (hash etag.str).toNat, by simp [etagMutate, ascii, chr], (liUtostrn_spec _).2.1⟩

/-! ## The scan of a list -/

section

variable {d tokStart : Bytes} {weakOk : Bool}

theorem scan_step {state : State} {c : Byte} (rest : Bytes) (h : c ≠ chr 'W') :
    scan tokStart weakOk state (c :: rest) =
      match step tokStart c state with
      | .error r => r
      | .ok state => scan tokStart weakOk state rest := by
  rw [scan.eq_def]
  simp only [h, and_false, if_false]

theorem scan_step_of_ne {state : State} (c : Byte) (rest : Bytes) (h : state ≠ .start) :
    scan tokStart weakOk state (c :: rest) =
      match step tokStart c state with
      | .error r => r
      | .ok state => scan tokStart weakOk state rest := by
  rw [scan.eq_def]
  simp only [h, false_and, if_false]

theorem scan_separators {sep : Bytes} (h : sep.all isSeparator = true) (s : Bytes) :
    scan tokStart weakOk .start (sep ++ s) = scan tokStart weakOk .start s := by
  induction sep with
  | nil => rfl
  | cons c sep ih =>
    obtain ⟨hc, hsep⟩ : isSeparator c = true ∧ sep.all isSeparator = true := by simpa using h
    have hW : c ≠ chr 'W' := by rintro rfl; exact absurd hc (by decide)
    have hquote : c ≠ chr '"' := by rintro rfl; exact absurd hc (by decide)
    rw [List.cons_append, scan_step _ hW, ← ih hsep]
    have hsep' : (isSpace c || decide (c = chr ',')) = true := by simpa [isSeparator] using hc
    simp [step, hquote, hsep']

theorem scan_spaces {ws : Bytes} (h : ws.all isSpace = true) (s : Bytes) :
    scan tokStart weakOk .tail (ws ++ s) = scan tokStart weakOk .tail s := by
  induction ws with
  | nil => rfl
  | cons c ws ih =>
    obtain ⟨hc, hws⟩ : isSpace c = true ∧ ws.all isSpace = true := by simpa using h
    have hcomma : c ≠ chr ',' := by rintro rfl; exact absurd hc (by decide)
    rw [List.cons_append, scan_step_of_ne _ _ (by simp), ← ih hws]
    simp [step, hcomma, hc]

theorem scan_skip {text : Bytes} (h : Text text) (s : Bytes) :
    scan tokStart weakOk .skip (text ++ chr '"' :: s) = scan tokStart weakOk .tail s := by
  have hne : chr '"' ≠ chr '\\' := by decide
  induction h with
  | nil =>
    rw [List.nil_append, scan_step_of_ne _ _ (by simp)]
    simp [step, hne]
  | char _ hquote hback _ ih =>
    rw [List.cons_append, scan_step_of_ne _ _ (by simp)]
    simp [step, hquote, hback, ih]
  | quoted _ _ ih =>
    rw [List.cons_append, List.cons_append, scan_step_of_ne _ _ (by simp)]
    simp only [step, if_pos]
    rw [scan_step_of_ne _ _ (by simp)]
    simp [step, ih]

/-- **The text of a member is compared**: a proper prefix of the wanted text ends the scan. -/
theorem scan_text {text : Bytes} (h : Text text) (hd : ∀ c ∈ d, c ≠ 0 ∧ c ≠ chr '\\') (s : Bytes) :
    scan tokStart weakOk (.check (d ++ [chr '"'])) (text ++ chr '"' :: s) =
      if text = d then true else if text <+: d then false else scan tokStart weakOk .tail s := by
  have hne : chr '"' ≠ chr '\\' := by decide
  have hzero : chr '"' ≠ 0 := by decide
  induction h generalizing d with
  | nil =>
    rw [List.nil_append, scan_step_of_ne _ _ (by simp)]
    cases d with
    | nil => simp [step, hne, hzero, deref]
    | cons e d =>
      have hderef : deref (d ++ [chr '"']) ≠ 0 := by
        cases d with
        | nil => simpa [deref] using hzero
        | cons e' d => simpa [deref] using (hd e' (by simp)).1
      simp [step, hne, hderef]
  | @char c text hc hquote hback htext ih =>
    rw [List.cons_append, scan_step_of_ne _ _ (by simp)]
    cases d with
    | nil =>
      simp [step, hback, hquote, deref, Ne.symm hquote, scan_skip htext]
    | cons e d =>
      have he := (hd e (by simp)).1
      by_cases heq : e = c
      · subst heq
        simp [step, hback, hquote, deref, he, ih fun c hc => hd c (List.mem_cons_of_mem _ hc), List.cons_prefix_cons]
      · simp [step, hback, hquote, deref, heq, Ne.symm heq, scan_skip htext, List.cons_prefix_cons]
  | @quoted c text hc htext ih =>
    have hderef : deref (d ++ [chr '"']) ≠ chr '\\' := by
      cases d with
      | nil => simpa [deref] using hne
      | cons e d => simpa [deref] using (hd e (by simp)).2
    have hpre : ¬ chr '\\' :: c :: text <+: d := by
      intro hp
      exact (hd (chr '\\') (hp.subset (by simp))).2 rfl
    have heq : chr '\\' :: c :: text ≠ d := fun heq => hpre (heq ▸ List.prefix_rfl)
    rw [List.cons_append, List.cons_append, scan_step_of_ne _ _ (by simp), if_neg heq, if_neg hpre]
    simp only [step, hderef, and_false, if_true, if_false]
    rw [scan_step_of_ne _ _ (by simp)]
    simp [step, scan_skip htext]

/-- **A member is compared as a whole.** -/
theorem scan_tag (t : EntityTag) (hd : ∀ c ∈ d, c ≠ 0 ∧ c ≠ chr '\\') (s : Bytes) :
    scan (d ++ [chr '"']) weakOk .start (t.print ++ s) =
      if t.weak = true ∧ weakOk = false then scan (d ++ [chr '"']) weakOk .tail s
      else if t.text = d then true
      else if t.text <+: d then false
      else scan (d ++ [chr '"']) weakOk .tail s := by
  have hquoted : t.quoted ++ s = chr '"' :: (t.text ++ chr '"' :: s) := by simp [EntityTag.quoted]
  rcases hweak : t.weak with _ | _
  · rw [EntityTag.print, hweak, if_neg Bool.false_ne_true, hquoted, scan_step _ (by decide)]
    simp only [step, if_true]
    rw [scan_text t.isText hd]
    simp
  · rw [EntityTag.print, hweak, if_pos rfl, List.append_assoc, hquoted]
    show scan (d ++ [chr '"']) weakOk .start (chr 'W' :: chr '/' :: chr '"' :: (t.text ++ chr '"' :: s)) = _
    rw [scan, if_pos ⟨rfl, rfl⟩]
    simp only [ne_eq, not_true_eq_false, if_false]
    cases weakOk with
    | false => simp [scan_skip t.isText]
    | true => simp [scan_text t.isText hd]

/-- What the scan finds in a list of members. -/
def answer (d : Bytes) (weakOk : Bool) : List EntityTag → Bool
  | [] => false
  | t :: ts =>
    if t.weak = true ∧ weakOk = false then answer d weakOk ts
    else if t.text = d then true
    else if t.text <+: d then false
    else answer d weakOk ts

/-- **The scan of a well-formed list goes member by member.** -/
theorem scan_list {ts : List EntityTag} {s : Bytes} (h : TagList ts s) (hd : ∀ c ∈ d, c ≠ 0 ∧ c ≠ chr '\\') :
    scan (d ++ [chr '"']) weakOk .start s = answer d weakOk ts := by
  have hend : ∀ state, scan (d ++ [chr '"']) weakOk state [] = false := fun state => by rw [scan]
  induction h with
  | @nil sep hsep =>
    have hscan : scan (d ++ [chr '"']) weakOk .start (sep ++ []) = _ := scan_separators hsep []
    rw [List.append_nil, hend] at hscan
    rw [hscan, answer]
  | @last sep ws t hsep hws =>
    have hscan : scan (d ++ [chr '"']) weakOk .tail (ws ++ []) = _ := scan_spaces hws []
    rw [List.append_nil, hend] at hscan
    rw [scan_separators hsep, scan_tag t hd, hscan, answer, answer]
  | @cons sep ws s ts t hsep hws _ ih =>
    have hscan : scan (d ++ [chr '"']) weakOk .tail (ws ++ chr ',' :: s) = answer d weakOk ts := by
      rw [scan_spaces hws, scan_step _ (by decide), ← ih]
      simp [step]
    rw [scan_separators hsep, scan_tag t hd, hscan, answer]

end

/-! ## The list and its members -/

theorem Text.nonzero {text : Bytes} (h : Text text) : (0 : Byte) ∉ text := by
  induction h with
  | nil => simp
  | char hc _ _ _ ih => simpa [Ne.symm hc] using ih
  | quoted hc _ ih =>
    have hback : (0 : Byte) ≠ chr '\\' := by decide
    simpa [Ne.symm hc, hback] using ih

theorem Text.ne_concat {text d : Bytes} (h : Text text) (hd : ∀ c ∈ d, c ≠ chr '\\') : text ≠ d ++ [chr '"'] := by
  induction h generalizing d with
  | nil => simp
  | char _ hquote _ _ ih =>
    cases d with
    | nil => simp [hquote]
    | cons e d => simpa using fun _ => ih fun c hc => hd c (List.mem_cons_of_mem _ hc)
  | quoted _ _ _ =>
    intro heq
    cases d with
    | nil => exact absurd (List.cons.inj heq).1 (by decide)
    | cons e d => exact hd e List.mem_cons_self (List.cons.inj heq).1.symm

theorem text_of_digits {s : Bytes} (h : ∀ c ∈ s, Netstring.isDigit c = true) : Text s := by
  induction s with
  | nil => exact .nil
  | cons c s ih =>
    have hc := h c List.mem_cons_self
    refine .char ?_ ?_ ?_ (ih fun e he => h e (List.mem_cons_of_mem _ he))
    all_goals
      rintro rfl
      exact absurd hc (by decide)

theorem EntityTag.nonzero (t : EntityTag) : (0 : Byte) ∉ t.print := by
  have htext := t.isText.nonzero
  have hquote : (0 : Byte) ≠ chr '"' := by decide
  have hweak : (0 : Byte) ∉ ascii "W/" := by decide
  unfold EntityTag.print EntityTag.quoted
  split <;> simp [htext, hquote, hweak]

theorem EntityTag.two_le_length (t : EntityTag) : 2 ≤ t.print.length := by
  unfold EntityTag.print EntityTag.quoted
  split
  · simp only [List.length_append, List.length_cons, List.length_nil]
    omega
  · simp

theorem nonzero_of_all {p : Byte → Bool} (hp : p 0 = false) {s : Bytes} (h : s.all p = true) : (0 : Byte) ∉ s := by
  intro hmem
  have hzero := List.all_eq_true.mp h 0 hmem
  rw [hp] at hzero
  cases hzero

theorem TagList.nonzero {ts : List EntityTag} {s : Bytes} (h : TagList ts s) : (0 : Byte) ∉ s := by
  induction h with
  | nil hsep => exact nonzero_of_all (by decide) hsep
  | last t hsep hws =>
    have hsep := nonzero_of_all (by decide) hsep
    have hws := nonzero_of_all (by decide) hws
    simp [hsep, hws, t.nonzero]
  | cons t hsep hws _ ih =>
    have hsep := nonzero_of_all (by decide) hsep
    have hws := nonzero_of_all (by decide) hws
    have hcomma : (0 : Byte) ≠ chr ',' := by decide
    simp [hsep, hws, t.nonzero, ih, hcomma]

/-- A list is not the `*`. -/
theorem TagList.ne_any {ts : List EntityTag} {s : Bytes} (h : TagList ts s) : s ≠ [chr '*'] := by
  intro heq
  cases h with
  | nil hsep =>
    rw [heq] at hsep
    exact absurd hsep (by decide)
  | last t _ _ =>
    have hlen := congrArg List.length heq
    have htwo := t.two_le_length
    simp only [List.length_append, List.length_singleton] at hlen
    omega
  | cons t _ _ _ =>
    have hlen := congrArg List.length heq
    have htwo := t.two_le_length
    simp only [List.length_append, List.length_cons, List.length_nil] at hlen
    omega

section

variable {etag : Bytes} {weakOk : Bool}

theorem cut_cons (t : EntityTag) (ts : List EntityTag) : Cut etag weakOk (some (t :: ts)) ↔
    (t.Considered weakOk ∧ chr '"' :: t.text <+: etag ∧ t.quoted ≠ etag ∧ ∃ u ∈ ts, u.Equals etag weakOk) ∨
      (¬ t.Equals etag weakOk ∧ Cut etag weakOk (some ts)) := by
  constructor
  · rintro ⟨before, u, behind, heq, hconsidered, hpre, hne, hbefore, hbehind⟩
    cases before with
    | nil =>
      obtain ⟨rfl, rfl⟩ := List.cons.inj heq
      exact Or.inl ⟨hconsidered, hpre, hne, hbehind⟩
    | cons v before =>
      obtain ⟨rfl, rfl⟩ := List.cons.inj heq
      refine Or.inr ⟨hbefore _ List.mem_cons_self, before, u, behind, rfl, hconsidered, hpre, hne, ?_, hbehind⟩
      exact fun w hw => hbefore w (List.mem_cons_of_mem _ hw)
  · rintro (⟨hconsidered, hpre, hne, hbehind⟩ | ⟨ht, before, u, behind, rfl, hconsidered, hpre, hne, hbefore, hbehind⟩)
    · exact ⟨[], t, ts, rfl, hconsidered, hpre, hne, by simp, hbehind⟩
    · refine ⟨t :: before, u, behind, rfl, hconsidered, hpre, hne, ?_, hbehind⟩
      intro w hw
      rcases List.mem_cons.mp hw with rfl | hw
      · exact ht
      · exact hbefore w hw

theorem listed_of_cut {list : Option (List EntityTag)} (h : Cut etag weakOk list) : Listed etag weakOk list := by
  cases list with
  | none => trivial
  | some ts =>
    obtain ⟨before, t, behind, rfl, -, -, -, -, u, hu, hequals⟩ := h
    exact ⟨u, by simp [hu], hequals⟩

/-- **The scan finds the ETag in the list unless it is cut.** -/
theorem answer_iff {d : Bytes} (hd : ∀ c ∈ d, c ≠ 0 ∧ c ≠ chr '\\') (ts : List EntityTag) :
    answer d weakOk ts = true ↔ Listed (chr '"' :: (d ++ [chr '"'])) weakOk (some ts) ∧
      ¬ Cut (chr '"' :: (d ++ [chr '"'])) weakOk (some ts) := by
  induction ts with
  | nil => simp [answer, Listed]
  | cons t ts ih =>
    have hequals : t.quoted = chr '"' :: (d ++ [chr '"']) ↔ t.text = d := by simp [EntityTag.quoted]
    have hpre : chr '"' :: t.text <+: chr '"' :: (d ++ [chr '"']) ↔ t.text <+: d := by
      rw [List.cons_prefix_cons, List.prefix_concat_iff]
      simp [t.isText.ne_concat fun c hc => (hd c hc).2]
    have hconsidered : t.Considered weakOk ↔ ¬ (t.weak = true ∧ weakOk = false) := by
      simp [EntityTag.Considered]
    rw [cut_cons, hpre, hconsidered]
    simp only [Listed, List.mem_cons, exists_eq_or_imp, EntityTag.Equals, hequals, hconsidered, answer, ne_eq] at ih ⊢
    by_cases hskip : t.weak = true ∧ weakOk = false
    · obtain ⟨hweak, rfl⟩ := hskip
      simp [hweak, ih]
    · by_cases htext : t.text = d
      · simp [hskip, htext]
      · by_cases hcut : t.text <+: d
        · simp [hskip, htext, hcut]
          exact fun u hu hcons hq hnone => absurd hq (hnone u hu hcons)
        · simp [hskip, htext, hcut, ih]

end

/-! ## `etag_is_equal` -/

/-- **What `etag_is_equal` answers for a well-formed value.** -/
theorem etagIsEqual_iff {etag : Buffer} {list : Option (List EntityTag)} {line : Bytes} (hetag : Mutated etag.str)
    (h : IfNoneMatch list line) (weakOk : Bool) :
    etagIsEqual (some etag) line weakOk = true ↔ Listed etag.str weakOk list ∧ ¬ Cut etag.str weakOk list := by
  obtain ⟨digits, hstr, hdigits⟩ := hetag
  have hplain : ∀ c ∈ digits, c ≠ 0 ∧ c ≠ chr '\\' := by
    intro c hc
    have hdigit := hdigits c hc
    constructor <;> rintro rfl <;> exact absurd hdigit (by decide)
  have hzero : (0 : Byte) ∉ etag.str := by
    have hquote : (0 : Byte) ≠ chr '"' := by decide
    have hno : (0 : Byte) ∉ digits := fun hc => (hplain 0 hc).1 rfl
    simp [hstr, hquote, hno]
  cases h with
  | any => simp [etagIsEqual, Listed, Cut, show cstr (ascii "*") = [chr '*'] from rfl]
  | @list ts _ hlist =>
    have hempty : etag.stringIsEmpty = false := by
      rw [← Bool.not_eq_true, Buffer.stringIsEmpty_iff, hstr]
      simp
    have hscan : etagIsEqual (some etag) line weakOk = scan (digits ++ [chr '"']) weakOk .start line := by
      have hne : chr '"' ≠ chr 'W' := by decide
      have htag : cstr etag.str = chr '"' :: (digits ++ [chr '"']) := by rw [cstr_eq_self hzero, hstr]
      unfold etagIsEqual
      rw [cstr_eq_self hlist.nonzero, if_neg hlist.ne_any]
      simp [hempty, htag, deref, hne]
    rw [hscan, scan_list hlist hplain, hstr]
    exact answer_iff hplain ts

/-- **The answer is membership in the list exactly where no proper prefix cuts the scan.** -/
theorem etag_is_equal_listed {etag : Buffer} {list : Option (List EntityTag)} {line : Bytes} (hetag : Mutated etag.str)
    (h : IfNoneMatch list line) (weakOk : Bool) :
    (etagIsEqual (some etag) line weakOk = true ↔ Listed etag.str weakOk list) ↔ ¬ Cut etag.str weakOk list := by
  rw [etagIsEqual_iff hetag h]
  constructor
  · intro hiff hcut
    exact (hiff.mpr (listed_of_cut hcut)).2 hcut
  · intro hcut
    exact and_iff_left hcut

def numberTag (weak : Bool) (n : Nat) : EntityTag := ⟨weak, liUtostrn n, text_of_digits (liUtostrn_spec n).2.1⟩

/-- `W/"97" , "1", "97"` for the tag `"97"`. -/
theorem etag_is_equal_listed_sample :
    (etagIsEqual (some (etagMutate Buffer.init (Buffer.ofString (ascii "a")))) (ascii "W/\"97\" , \"1\", \"97\"") false =
        true ↔
      Listed (etagMutate Buffer.init (Buffer.ofString (ascii "a"))).str false
        (some [numberTag true 97, numberTag false 1, numberTag false 97])) ↔
    ¬ Cut (etagMutate Buffer.init (Buffer.ofString (ascii "a"))).str false
        (some [numberTag true 97, numberTag false 1, numberTag false 97]) := by
  have hlist : TagList [numberTag true 97, numberTag false 1, numberTag false 97]
      (ascii "W/\"97\" , \"1\", \"97\"") :=
    @TagList.cons [] (ascii " ") _ _ (numberTag true 97) rfl rfl
      (@TagList.cons (ascii " ") [] _ _ (numberTag false 1) rfl rfl
        (@TagList.last (ascii " ") [] (numberTag false 97) rfl rfl))
  exact etag_is_equal_listed (etagMutate_mutated _ _) (.list hlist) false

/-- `"9", "97"` has the tag `"97"`, but its first member is a proper prefix. -/
theorem prefix_ends_scan :
    ∃ list, IfNoneMatch list (ascii "\"9\", \"97\"") ∧
      Listed (etagMutate Buffer.init (Buffer.ofString (ascii "a"))).str false list ∧
      etagIsEqual (some (etagMutate Buffer.init (Buffer.ofString (ascii "a")))) (ascii "\"9\", \"97\"") false = false := by
  refine ⟨_, .list (@TagList.cons [] [] _ _ (numberTag false 9) rfl rfl
    (@TagList.last (ascii " ") [] (numberTag false 97) rfl rfl)), ?_, by decide +kernel⟩
  refine ⟨numberTag false 97, by simp, ⟨fun hweak => ?_, by decide⟩⟩
  cases hweak

end Lighttpd.Etag
