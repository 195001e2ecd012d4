import Lighttpd.Auth.Password
import Mathlib.Tactic.Common

/-!
# The rules of `require` (`http_auth.c`)

The value of `require` is `valid-user` or a row of alternatives with `|` between them. `httpAuthMatchRules` scans it
with pointers; here it is compared with the row of alternatives, taken one after the other.

- `ruleLoop_eq`: the scan is `firstMatch` over what stands between the `|`;
- `firstMatch_iff`: an alternative is reached if each one in front of it has a key that is known;
- `httpAuthMatchRules_iff`: what is accepted.
-/

namespace Lighttpd.Auth

/-! ## One alternative after the other -/

/-- A key that is known, and the `=` behind it. -/
def Known (a : Bytes) : Prop := ascii "user=" <+: a ∨ ascii "group=" <+: a ∨ ascii "host=" <+: a

instance (a : Bytes) : Decidable (Known a) := inferInstanceAs (Decidable (_ ∨ _))

def userRule (name : Bytes) : Bytes := ascii "user=" ++ name

/-- What the alternatives come to. -/
def firstMatch (username : Option Bytes) : List Bytes → Bool
  | [] => false
  | a :: as =>
    if username.map userRule = some a then true else if Known a then firstMatch username as else false

variable {k v a : Bytes} {username : Option Bytes}

theorem firstMatch_iff {as : List Bytes} : firstMatch username as = true ↔
    ∃ name before behind, username = some name ∧ as = before ++ userRule name :: behind ∧ ∀ a ∈ before, Known a := by
  induction as with
  | nil => simp [firstMatch]
  | cons a as ih =>
    unfold firstMatch
    constructor
    · intro h
      split at h
      · rename_i hu
        obtain ⟨name, rfl, rfl⟩ := Option.map_eq_some_iff.mp hu
        exact ⟨name, [], as, rfl, rfl, by simp⟩
      · split at h
        · rename_i hk
          obtain ⟨name, before, behind, hname, rfl, hb⟩ := ih.mp h
          exact ⟨name, a :: before, behind, hname, rfl, List.forall_mem_cons.mpr ⟨hk, hb⟩⟩
        · exact absurd h (by simp)
    · rintro ⟨name, before, behind, rfl, has, hb⟩
      cases before with
      | nil =>
        obtain ⟨rfl, -⟩ := List.cons.inj has
        simp
      | cons b before =>
        obtain ⟨rfl, rfl⟩ := List.cons.inj has
        obtain ⟨hk, hb⟩ := List.forall_mem_cons.mp hb
        rw [if_pos hk, ih.mpr ⟨name, before, behind, rfl, rfl, hb⟩, ite_self]

/-! ## The scan -/

theorem takeWhile_append_cons {c : Byte} (h : c ∉ k) (t : Bytes) : (k ++ c :: t).takeWhile (· ≠ c) = k := by
  rw [List.takeWhile_append_of_pos fun b hb => ?_]
  · simp
  · simpa using fun hbc : b = c => h (hbc ▸ hb)

/-- An alternative with `=` begins with a key and `=` if that is its key. -/
theorem prefix_key {w : Bytes} (hw : chr '=' ∉ w) (hk : chr '=' ∉ k) :
    w ++ [chr '='] <+: k ++ chr '=' :: v ↔ k = w := by
  constructor
  · rintro ⟨t, ht⟩
    rw [List.append_assoc, List.singleton_append] at ht
    rw [← takeWhile_append_cons hk v, ← ht, takeWhile_append_cons hw]
  · rintro rfl
    exact ⟨v, by simp⟩

theorem known_iff (hk : chr '=' ∉ k) :
    Known (k ++ chr '=' :: v) ↔ k = ascii "user" ∨ k = ascii "group" ∨ k = ascii "host" := by
  have hu : chr '=' ∉ ascii "user" := by decide
  have hg : chr '=' ∉ ascii "group" := by decide
  have hh : chr '=' ∉ ascii "host" := by decide
  rw [← prefix_key (v := v) hu hk, ← prefix_key (v := v) hg hk, ← prefix_key (v := v) hh hk]
  rfl

/-- `user=` and a name is no alternative with another key. -/
theorem userRule_eq_iff {name : Bytes} (hk : chr '=' ∉ k) :
    userRule name = k ++ chr '=' :: v ↔ k = ascii "user" ∧ name = v := by
  have hu : chr '=' ∉ ascii "user" := by decide
  have hrule : userRule name = ascii "user" ++ chr '=' :: name := rfl
  constructor
  · intro h
    have hkey : k = ascii "user" := by
      rw [← takeWhile_append_cons hk v, ← h, hrule, takeWhile_append_cons hu]
    subst hkey
    rw [hrule] at h
    exact ⟨rfl, (List.cons.inj (List.append_cancel_left h)).2⟩
  · rintro ⟨rfl, rfl⟩
    exact hrule

theorem not_known (h : chr '=' ∉ a) : ¬ Known a := by
  have hmem : ∀ {w : Bytes}, chr '=' ∈ w → ¬ w <+: a := fun hw hp => h (hp.subset hw)
  rintro (hp | hp | hp)
  · exact hmem (by decide) hp
  · exact hmem (by decide) hp
  · exact hmem (by decide) hp

theorem userRule_ne {name : Bytes} (h : chr '=' ∉ a) : userRule name ≠ a := by
  rintro rfl
  exact h (List.mem_append_left _ (by decide))

/-- **The first alternative and the rest.** The rest `t` is empty or begins with the `|`. -/
theorem ruleLoop_succ {fuel : Nat} {t : Bytes} (ha : chr '|' ∉ a) (ht : t = [] ∨ t.head? = some (chr '|')) :
    ruleLoop username (fuel + 1) (a ++ t) =
      if username.map userRule = some a then true
      else if Known a ∧ t ≠ [] then ruleLoop username fuel t.tail else false := by
  have hr : ((a ++ t).takeWhile (· ≠ chr '|')) = a := by
    rcases ht with rfl | ht
    · rw [List.append_nil]
      exact List.takeWhile_eq_self_iff.mpr fun b hb => by simpa using fun h : b = chr '|' => ha (h ▸ hb)
    · obtain ⟨t', rfl⟩ := List.head?_eq_some_iff.mp ht
      exact takeWhile_append_cons ha t'
  have hbar : chr '|' ∈ a ++ t ↔ t ≠ [] := by
    rcases ht with rfl | ht
    · simpa using ha
    · obtain ⟨t', rfl⟩ := List.head?_eq_some_iff.mp ht
      simp
  have hrest : (a ++ t).drop (a.length + 1) = t.tail := by
    rw [← List.drop_drop, List.drop_left, List.drop_one]
  rw [ruleLoop]
  simp only [hr, hbar, hrest, List.take_left]
  by_cases heq : chr '=' ∈ a
  · obtain ⟨k, v, rfl, hk⟩ := List.eq_append_cons_of_mem heq
    have hvalid : (k ++ chr '=' :: v).isPrefixOf (ascii "valid-user") = false := by
      rw [Bool.eq_false_iff, ne_eq, List.isPrefixOf_iff_prefix]
      intro hp
      exact absurd (hp.subset heq) (by decide)
    have hkey : ((k ++ chr '=' :: v) ++ t).takeWhile (· ≠ chr '=') = k := by
      rw [List.append_assoc, List.cons_append, takeWhile_append_cons hk]
    have htake : ((k ++ chr '=' :: v) ++ t).take k.length = k := by simp
    have hval : (((k ++ chr '=' :: v) ++ t).drop (k.length + 1)).take ((k ++ chr '=' :: v).length - k.length - 1) = v := by
      rw [List.append_assoc, ← List.drop_drop, List.drop_left]
      simp
    have hmem : chr '=' ∈ (k ++ chr '=' :: v) ++ t := List.mem_append_left _ heq
    have hlen : ¬ (k ++ chr '=' :: v).length < k.length := by simp
    have hname : username.map userRule = some (k ++ chr '=' :: v) ↔ k = ascii "user" ∧ username = some v := by
      cases username <;> simp [userRule_eq_iff hk]
    simp only [hvalid, hkey, htake, hval, hmem, not_true_eq_false, hlen, if_false, Bool.false_eq_true, hname,
      known_iff hk]
    by_cases hu : k = ascii "user"
    · subst hu
      have h4 : (ascii "user").length = 4 := by decide
      simp [h4]
    · by_cases hh : k = ascii "host"
      · subst hh
        have h4 : (ascii "host").length = 4 := by decide
        simp [h4, hu]
      · by_cases hg : k = ascii "group"
        · subst hg
          have h5 : (ascii "group").length = 5 := by decide
          simp [h5, hu]
        · simp [hu, hh, hg]
  · have hkey : a.length < ((a ++ t).takeWhile (· ≠ chr '=')).length ∨ chr '=' ∉ a ++ t := by
      rcases ht with rfl | ht
      · exact .inr (by simpa using heq)
      · obtain ⟨t', rfl⟩ := List.head?_eq_some_iff.mp ht
        rw [List.takeWhile_append_of_pos fun b hb => by simpa using fun h : b = chr '=' => heq (h ▸ hb)]
        exact .inl (by simp [chr])
    have hname : username.map userRule ≠ some a := by
      cases username with
      | none => simp
      | some name => simpa using userRule_ne heq
    have hknown : ¬ (Known a ∧ t ≠ []) := fun h => not_known heq h.1
    rw [if_neg hname, if_neg hknown]
    split
    · rfl
    · rcases hkey with hkey | hkey
      · simp only [hkey, if_true, ite_self]
      · rw [if_pos hkey]

/-- The scan is the first match over what stands between the `|`. -/
theorem ruleLoop_eq {fuel : Nat} {r : Bytes} (h : r.length < fuel) :
    ruleLoop username fuel r = firstMatch username (r.splitOn (chr '|')) := by
  induction fuel generalizing r with
  | zero => exact absurd h (Nat.not_lt_zero _)
  | succ fuel ih =>
    by_cases hbar : chr '|' ∈ r
    · obtain ⟨a, t, rfl, ha⟩ := List.eq_append_cons_of_mem hbar
      rw [List.length_append, List.length_cons] at h
      have hlt : t.length < fuel := by omega
      rw [ruleLoop_succ ha (.inr rfl), List.splitOn_append_cons_self_of_not_mem ha, List.tail_cons, ih hlt]
      simp [firstMatch]
    · have hone : ruleLoop username (fuel + 1) (r ++ []) = _ := ruleLoop_succ hbar (.inl rfl)
      rw [List.append_nil] at hone
      rw [hone, List.splitOn_eq_singleton hbar]
      simp [firstMatch]

/-! ## What is accepted -/

/-- **A user is let in by `valid-user`, or by an alternative of its own with no unknown one in front of it.** -/
theorem httpAuthMatchRules_iff (value : Bytes) (username : Option Bytes) :
    httpAuthMatchRules (some value) username = true ↔
      cstr value = ascii "valid-user" ∨ ∃ name before behind, username = some name ∧
        (cstr value).splitOn (chr '|') = before ++ (ascii "user=" ++ name) :: behind ∧ ∀ a ∈ before, Known a := by
  have hlen : (cstr value).length < value.length + 1 := Nat.lt_succ_of_le (List.takeWhile_sublist _).length_le
  have hmatch : httpAuthMatchRules (some value) username = true ↔
      cstr value = ascii "valid-user" ∨ ruleLoop username (value.length + 1) (cstr value) = true := by
    simp [httpAuthMatchRules]
  rw [hmatch, ruleLoop_eq hlen, firstMatch_iff]
  rfl

/-- Behind a key that is not known, the user is not looked for. -/
theorem httpAuthMatchRules_unknown :
    (ascii "role=x|user=bob").splitOn (chr '|') = [ascii "role=x"] ++ (ascii "user=" ++ ascii "bob") :: [] ∧
      httpAuthMatchRules (some (ascii "role=x|user=bob")) (some (ascii "bob")) = false := by decide

end Lighttpd.Auth
