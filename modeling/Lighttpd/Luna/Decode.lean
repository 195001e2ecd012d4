import Lighttpd.Luna.TidArray
import Mathlib.Data.Nat.Digits.Lemmas

/-!
# The tags that redis stores (`redis_util.cpp`)

Redis has the tags of a user in base 62, with commas. `redis_clu_get` writes them in decimal to an array of the caller,
and is `none` where it writes behind it.

- `base62From_encode`: `base62decode` adds up the digits of a number without an overflow;
- `decodeValue_stored`: the list of the tags in decimal;
- `tagsExact_iff`: the tags are decoded just when this list fits into the array.
-/

namespace Lighttpd.Luna

/-! ## Base 62 -/

def table : Bytes := ascii "0123456789ABCDEFGHIJKLMNOPQRSTUVWXYZabcdefghijklmnopqrstuvwxyz"

def base62Char (d : Nat) : Byte := table.getD d 0

/-- **The encoding of a number.** -/
def encode (n : Nat) : Bytes := if n = 0 then [base62Char 0] else ((Nat.digits 62 n).map base62Char).reverse

theorem base62Digit_char : ∀ d < 62, base62Digit (base62Char d) = some d := by
  unfold base62Char
  rw [table, ascii_ofList]
  decide

theorem base62Char_ne_comma : ∀ d < 62, base62Char d ≠ chr ',' := fun d hd h => by
  have hdigit := base62Digit_char d hd
  rw [h] at hdigit
  cases hdigit

theorem base62Step_char {number : Int} {i d : Nat} (hd : d < 62) (hi : i < 172) (hnumber : 0 ≤ number)
    (h : number + d * 62 ^ i < 2 ^ 31) : base62Step number i (base62Char d) = number + d * 62 ^ i := by
  have hpos : (0 : Int) ≤ d * 62 ^ i := by positivity
  unfold base62Step doubleToInt
  rw [base62Digit_char d hd]
  dsimp only
  rw [if_pos hi, if_pos ⟨by omega, h⟩]

theorem base62From_digits {ds : List Nat} {i : Nat} {number : Int} (hds : ∀ d ∈ ds, d < 62) (hi : i + ds.length ≤ 172)
    (hnumber : 0 ≤ number) (h : number + 62 ^ i * (Nat.ofDigits 62 ds : Nat) < 2 ^ 31) :
    base62From i number (ds.map base62Char) = number + 62 ^ i * (Nat.ofDigits 62 ds : Nat) := by
  induction ds generalizing i number with
  | nil => simp [base62From]
  | cons d ds ih =>
    rw [List.forall_mem_cons] at hds
    rw [List.length_cons] at hi
    have hsum : number + 62 ^ i * (Nat.ofDigits 62 (d :: ds) : Nat) =
        number + d * 62 ^ i + 62 ^ (i + 1) * (Nat.ofDigits 62 ds : Nat) := by
      rw [Nat.ofDigits_cons]
      push_cast
      ring
    have hrest : (0 : Int) ≤ 62 ^ (i + 1) * (Nat.ofDigits 62 ds : Nat) := by positivity
    have hdigit : (0 : Int) ≤ d * 62 ^ i := by positivity
    rw [hsum] at h ⊢
    rw [List.map_cons, base62From, base62Step_char hds.1 (by omega) hnumber (by omega)]
    exact ih hds.2 (by omega) (by omega) h

/-- **The characters from the last one on** give the number without the digits in front of them, in the range of `int`. -/
theorem base62From_encode {n : Nat} (hn : n < 2 ^ 31) (k : Nat) :
    base62From 0 0 ((encode n).reverse.take k) = (n % 62 ^ k : Nat) := by
  unfold encode
  split_ifs with hzero
  · subst hzero
    cases k with
    | zero => rfl
    | succ k => simp [base62From, base62Step_char]
  have hlen : (Nat.digits 62 n).length ≤ 6 := (Nat.digits_length_le_iff (by omega) n).mpr (by omega)
  have htake := List.length_take_le' k (Nat.digits 62 n)
  have hmod := Nat.mod_le n (62 ^ k)
  have hvalue := Nat.self_mod_pow_eq_ofDigits_take k n (show 2 ≤ 62 by omega)
  rw [List.reverse_reverse, ← List.map_take, base62From_digits, ← hvalue]
  · simp
  · exact fun d hd => Nat.digits_lt_base (by omega) (List.mem_of_mem_take hd)
  · omega
  · exact Int.le_refl 0
  · rw [← hvalue]
    simp only [pow_zero, one_mul, zero_add]
    omega

/-- **`base62decode` is the inverse of the encoding.** -/
theorem base62decode_encode {n : Nat} (hn : n < 2 ^ 31) : base62decode (encode n) = decimal n := by
  have h := base62From_encode hn ((encode n).length + n)
  have hlt : n < 62 ^ ((encode n).length + n) :=
    (Nat.lt_pow_self (by omega)).trans_le (Nat.pow_le_pow_right (by omega) (Nat.le_add_left n _))
  rw [List.take_of_length_le (by rw [List.length_reverse]; omega), Nat.mod_eq_of_lt hlt] at h
  rw [base62decode, h]

theorem encode_ne_nil (n : Nat) : encode n ≠ [] := by
  unfold encode
  split_ifs with hzero
  · exact List.cons_ne_nil _ _
  · simpa using Nat.digits_ne_nil_iff_ne_zero.mpr hzero

theorem comma_notMem_encode (n : Nat) : chr ',' ∉ encode n := by
  unfold encode
  split_ifs with hzero
  · simpa using (base62Char_ne_comma 0 (by omega)).symm
  · rw [List.mem_reverse, List.mem_map]
    rintro ⟨d, hd, heq⟩
    exact base62Char_ne_comma d (Nat.digits_lt_base (by omega) hd) heq

/-! ## Lists of tags -/

/-- The value that redis has for tags. -/
def storedTags (ids : List Nat) : Bytes := [chr ','].intercalate (ids.map encode)

def decimalTags (ids : List Nat) : Bytes := [chr ','].intercalate (ids.map fun n : Nat => decimal n)

/-- `getline` reads the tags one after another. -/
theorem getlines_stored (ids : List Nat) : getlines (storedTags ids) = ids.map encode := by
  cases ids with
  | nil => rfl
  | cons n ids =>
    have hcomma : ∀ t ∈ (n :: ids).map encode, chr ',' ∉ t := by
      intro t ht
      obtain ⟨m, -, rfl⟩ := List.mem_map.mp ht
      exact comma_notMem_encode m
    unfold getlines storedTags
    rw [List.splitOn_intercalate _ hcomma (by simp)]
    refine if_neg fun hlast => ?_
    obtain ⟨m, -, hm⟩ := List.mem_map.mp (List.mem_of_getLast? hlast)
    exact encode_ne_nil m hm

/-- **The list that is made of the stored tags** has the same tags in the same order. -/
theorem decodeValue_stored {ids : List Nat} (hids : ∀ n ∈ ids, n < 2 ^ 31) :
    decodeValue (storedTags ids) = decimalTags ids := by
  unfold decodeValue decodeTags decimalTags
  rw [getlines_stored, List.map_map]
  congr 1
  exact List.map_congr_left fun n hn => base62decode_encode (hids n hn)

theorem length_intercalate (d : Byte) {ts : List Bytes} (hne : ts ≠ []) :
    ([d].intercalate ts).length + 1 = (ts.map fun t => t.length + 1).sum := by
  induction ts with
  | nil => exact absurd rfl hne
  | cons t ts ih =>
    cases ts with
    | nil => simp [List.intercalate]
    | cons t' ts =>
      have htail := ih (List.cons_ne_nil t' ts)
      rw [intercalate_cons_cons, List.map_cons, List.sum_cons, ← htail, List.length_append, List.length_cons]
      omega

theorem length_decimalTags (ids : List Nat) : (decimalTags ids).length < redisValueMaxLen ↔
    (ids.map fun n : Nat => (decimal n).length + 1).sum ≤ redisValueMaxLen := by
  cases ids with
  | nil => decide
  | cons n ids =>
    have hlen := @length_intercalate (chr ',') ((n :: ids).map fun n : Nat => decimal n) (by simp)
    rw [List.map_map] at hlen
    have hsum : ((n :: ids).map ((fun t : Bytes => t.length + 1) ∘ fun n : Nat => decimal n)).sum =
        ((n :: ids).map fun n : Nat => (decimal n).length + 1).sum := rfl
    rw [← hsum, ← hlen]
    exact Nat.lt_iff_add_one_le

/-! ## `redis_clu_get` -/

def strcpy (dest src : Bytes) : Option Bytes :=
  if src.length < dest.length then some (src ++ 0 :: dest.drop (src.length + 1)) else none

def redisCluGetOf (get : Bytes → Option Bytes) (uuid : Bytes) (tenantId : Int) (value : Bytes) : Option Bytes :=
  match get (redisKey uuid tenantId) with
  | none => some value
  | some [] => some value
  | some stored => strcpy value (decodeValue stored)

/-- The array of `read_tag`. -/
def redisArray : Bytes := List.replicate redisValueMaxLen 0

/-- The array has the tags in decimal, with a terminator behind them. -/
def TagsExact (get : Bytes → Option Bytes) (uuid : Bytes) (tenantId : Int) (ids : List Nat) : Prop :=
  ∃ rest, redisCluGetOf get uuid tenantId redisArray = some (decimalTags ids ++ 0 :: rest) ∧
    (decimalTags ids ++ 0 :: rest).length = redisValueMaxLen

/-- **The tags are decoded just when the list in decimal fits into the array.** -/
theorem tagsExact_iff {get : Bytes → Option Bytes} {uuid : Bytes} {tenantId : Int} {ids : List Nat}
    (hids : ∀ n ∈ ids, n < 2 ^ 31) (hget : get (redisKey uuid tenantId) = some (storedTags ids)) :
    TagsExact get uuid tenantId ids ↔ (ids.map fun n : Nat => (decimal n).length + 1).sum ≤ redisValueMaxLen := by
  rw [← length_decimalTags]
  have hlen : redisArray.length = redisValueMaxLen := List.length_replicate
  unfold TagsExact redisCluGetOf
  rw [hget]
  have hvalue := decodeValue_stored hids
  constructor
  · rintro ⟨rest, -, hsize⟩
    rw [List.length_append, List.length_cons] at hsize
    omega
  · intro hfits
    cases hstored : storedTags ids with
    | nil =>
      rw [hstored] at hvalue
      rw [← hvalue]
      exact ⟨List.replicate (redisValueMaxLen - 1) 0, rfl, by decide +kernel⟩
    | cons c stored =>
      rw [hstored] at hvalue
      refine ⟨redisArray.drop ((decimalTags ids).length + 1), ?_, ?_⟩
      · dsimp only
        rw [hvalue, strcpy, if_pos (by rw [hlen]; exact hfits)]
      · rw [List.length_append, List.length_cons, List.length_drop, hlen]
        omega

/-- **When stored tags are decoded**: `base62decode` is exact for every number in the range of `int`, and a list of tags is
decoded just when it fits into the array in decimal. -/
theorem stored_tags_iff (get : Bytes → Option Bytes) (uuid : Bytes) (tenantId : Int) (ids : List Nat) :
    (∀ n < 2 ^ 31, base62decode (encode n) = decimal n ∧
      ∀ k, base62From 0 0 ((encode n).reverse.take k) = (n % 62 ^ k : Nat)) ∧
    ((∀ n ∈ ids, n < 2 ^ 31) → get (redisKey uuid tenantId) = some (storedTags ids) →
      (TagsExact get uuid tenantId ids ↔ (ids.map fun n : Nat => (decimal n).length + 1).sum ≤ redisValueMaxLen)) :=
  ⟨fun _ hn => ⟨base62decode_encode hn, base62From_encode hn⟩, fun hids hget => tagsExact_iff hids hget⟩

/-- Three tags. -/
theorem stored_tags_three : base62decode (encode 2147483647) = ascii "2147483647" ∧
    TagsExact (fun _ => some (storedTags [7, 100, 2147483647])) (ascii "user") 1 [7, 100, 2147483647] := by
  have h := stored_tags_iff (fun _ => some (storedTags [7, 100, 2147483647])) (ascii "user") 1 [7, 100, 2147483647]
  exact ⟨(h.1 2147483647 (by decide)).1.trans (by decide), (h.2 (by decide) rfl).mpr (by decide)⟩

/-- 52 tags with ten decimal digits, whose value has 363 bytes. -/
theorem stored_tags_overflow :
    (∀ n ∈ List.replicate 52 2147483647, n < 2 ^ 31) ∧ (storedTags (List.replicate 52 2147483647)).length = 363 ∧
    ¬ TagsExact (fun _ => some (storedTags (List.replicate 52 2147483647))) (ascii "user") 1
      (List.replicate 52 2147483647) := by
  have hids : ∀ n ∈ List.replicate 52 2147483647, n < 2 ^ 31 := by decide
  refine ⟨hids, by decide +kernel, fun hexact => ?_⟩
  have hfits := (tagsExact_iff hids rfl).mp hexact
  rw [List.map_replicate, List.sum_replicate] at hfits
  exact absurd hfits (by decide)

end Lighttpd.Luna
