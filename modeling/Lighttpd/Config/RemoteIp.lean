import Lighttpd.Lib.Bits
import Lighttpd.Base.Strtol

/-!
# The remote address of a condition (`configfile-glue.c`)

A condition `$HTTP["remoteip"] == "10.0.0.0/8"` compares the address of the client with a network.

* `addrstr_ipv4`, `addrstr_ipv6`: the masks and the walk over the bytes compare the first bits;
* `remoteIp_contains`: the condition is true when the client is in the network.
-/

namespace Lighttpd.Config

open Bits

/-! ## Addresses -/

/-- `struct in_addr`, in network byte order. -/
abbrev InAddr := { l : Bytes // l.length = 4 }

/-- `struct in6_addr`. -/
abbrev In6Addr := { l : Bytes // l.length = 16 }

inductive SockAddr
  | inet (addr : InAddr)
  | inet6 (addr : In6Addr)
  | other
deriving DecidableEq

/-- `inet_pton` for `AF_INET` and for `AF_INET6`. -/
structure Pton where
  inet : Bytes → Option InAddr
  inet6 : Bytes → Option In6Addr

/-- The number `ntohl` gives of four bytes. -/
def ntohl (l : Bytes) : UInt32 := UInt32.ofNat (number l)

/-- What stands in front of an IPv4 address in `::ffff:0:0/96`. -/
def mappedPrefix : Bytes := List.replicate 10 0 ++ [0xff, 0xff]

/-- `IN6_IS_ADDR_V4MAPPED`. -/
def In6Addr.v4Mapped (a : In6Addr) : Bool := a.1.take 12 == mappedPrefix

/-! ## The comparison -/

def matchBytes (nmBits : Nat) : Bytes → Bytes → Bool
  | a :: as, b :: bs =>
    let matched := if nmBits ≥ 8 then a == b else a.toNat >>> (8 - nmBits) == b.toNat >>> (8 - nmBits)
    if matched && decide (nmBits > 8) then matchBytes (nmBits - 8) as bs else matched
  | _, _ => false

/-- The mask of an IPv4 address, in host byte order. -/
def inetMask (nmBits : Nat) : UInt32 := ~~~((1 <<< UInt32.ofNat (32 - if 0 ≠ nmBits then nmBits else 32)) - 1)

/-- The mask for the last four bytes of a mapped address. -/
def mappedMask (nmBits : Nat) : UInt32 :=
  if nmBits < 128 then ~~~(~~~(0 : UInt32) >>> UInt32.ofNat (if nmBits > 96 then nmBits - 96 else 0)) else ~~~0

/-- `config_addrstr_eq_remote_ip_mask`, `none` is `-1`. -/
def configAddrstrEqRemoteIpMask (pton : Pton) (addrstr : Bytes) (nmBits : Nat) (rmt : SockAddr) : Option Bool :=
  match pton.inet addrstr with
  | some val =>
    if nmBits > 32 then none
    else
      let nm := inetMask nmBits
      match rmt with
      | .inet a => some ((ntohl val.1 &&& nm) == (ntohl a.1 &&& nm))
      | .inet6 a =>
        if a.v4Mapped then some ((ntohl val.1 &&& nm) == (ntohl (a.1.drop 12) &&& nm)) else some false
      | .other => some false
  | none =>
    match pton.inet6 addrstr with
    | some val =>
      if nmBits > 128 then none
      else
        match rmt with
        | .inet6 a => some (matchBytes nmBits val.1 a.1)
        | .inet a =>
          if val.v4Mapped then
            let nm := mappedMask nmBits
            some ((ntohl (val.1.drop 12) &&& nm) == (ntohl a.1 &&& nm))
          else some false
        | .other => some false
    | none => none

def sizeofAddrstr : Nat := 64

/-- `config_addrbuf_eq_remote_ip_mask`: `nmSlash` is the index of the slash. -/
def configAddrbufEqRemoteIpMask (pton : Pton) (string : Bytes) (nmSlash : Nat) (rmt : SockAddr) : Option Bool :=
  let (n, err) := strtol 10 (string.drop (nmSlash + 1))
  let nmBits := toInt n
  if err ≠ [] then none
  else if nmBits ≤ 0 then none
  else if nmSlash ≥ sizeofAddrstr then none
  else configAddrstrEqRemoteIpMask pton (string.take nmSlash) nmBits.toNat rmt

inductive CondResult
  | unset
  | skip
  | false
  | true
deriving DecidableEq, Repr

inductive ConfigCond
  | unset
  | eq
  | isMatch
  | ne
  | noMatch
deriving DecidableEq, Repr

/-- The case of `COMP_HTTP_REMOTE_IP` with a mask, `none` when the text of the address is compared. -/
def remoteIpMask (pton : Pton) (cond : ConfigCond) (string : Bytes) (dstAddr : SockAddr) : Option CondResult :=
  if cond = .eq ∨ cond = .ne then
    match (cstr string).idxOf? (chr '/') with
    | none => none
    | some nmSlash =>
      match configAddrbufEqRemoteIpMask pton string nmSlash dstAddr with
      | some Bool.true => some (if cond = .eq then .true else .false)
      | some Bool.false => some (if cond = .eq then .false else .true)
      | none => some .false
  else none

/-! ## Masks -/

variable {n : Nat} {pton : Pton}

theorem number_lt_32 {l : Bytes} (h : l.length = 4) : number l < 2 ^ 32 := by
  have hlt := number_lt l
  rwa [h] at hlt

theorem ntohl_toNat {l : Bytes} (h : l.length = 4) : (ntohl l).toNat = number l := by
  rw [ntohl, UInt32.toNat_ofNat', Nat.mod_eq_of_lt (number_lt_32 h)]

theorem inetMask_testBit (h0 : 0 < n) (h : n ≤ 32) (i : Nat) :
    (inetMask n).toNat.testBit i = decide (32 - n ≤ i ∧ i < 32) := by
  have hall : ∀ n : Fin 33, 0 < n.val → ∀ i : Fin 32, (inetMask n).toNat.testBit i = decide (32 - n.val ≤ i.val) := by
    decide
  by_cases hi : i < 32
  · simpa [hi] using hall ⟨n, by omega⟩ h0 ⟨i, hi⟩
  · rw [Nat.testBit_lt_two_pow (Nat.lt_of_lt_of_le (inetMask n).toNat_lt (Nat.pow_le_pow_right (by omega) (by omega)))]
    simp
    omega

theorem mappedMask_testBit (h : n ≤ 128) (i : Nat) :
    (mappedMask n).toNat.testBit i = decide (128 - n ≤ i ∧ i < 32) := by
  have hall : ∀ k : Fin 33, ∀ i : Fin 32, (mappedMask (96 + k)).toNat.testBit i = decide (32 - k.val ≤ i.val) := by
    decide
  by_cases hi : i < 32
  · by_cases hn : n ≤ 96
    · have hzero : mappedMask n = 0 := by
        rw [mappedMask, if_pos (by omega), if_neg (by omega)]
        rfl
      simp [hzero]
      omega
    · have hbit := hall ⟨n - 96, by omega⟩ ⟨i, hi⟩
      dsimp only at hbit
      rw [Nat.add_sub_cancel' (by omega : 96 ≤ n)] at hbit
      rw [hbit, decide_eq_decide]
      omega
  · rw [Nat.testBit_lt_two_pow
      (Nat.lt_of_lt_of_le (mappedMask n).toNat_lt (Nat.pow_le_pow_right (by omega) (by omega)))]
    simp
    omega

/-- **A mask compares the first bits.** -/
theorem and_inetMask {a b : Bytes} (ha : a.length = 4) (hb : b.length = 4) (h0 : 0 < n) (h : n ≤ 32) :
    (ntohl a &&& inetMask n) = (ntohl b &&& inetMask n) ↔ (bits a).take n = (bits b).take n := by
  rw [take_bits_iff (by omega) (by omega), ha, ← UInt32.toNat_inj, UInt32.toNat_and, UInt32.toNat_and, ntohl_toNat ha,
    ntohl_toNat hb]
  exact and_mask_iff (inetMask_testBit h0 h) (number_lt_32 ha) (number_lt_32 hb)

/-- **The mask for the last four bytes compares the first bits of mapped addresses.** -/
theorem and_mappedMask {a b : Bytes} (ha : a.length = 4) (hb : b.length = 4) (h : n ≤ 128) :
    (ntohl a &&& mappedMask n) = (ntohl b &&& mappedMask n) ↔
      (bits (mappedPrefix ++ a)).take n = (bits (mappedPrefix ++ b)).take n := by
  have hprefix : (bits mappedPrefix).length = 96 := by rw [length_bits]; rfl
  rw [bits_append, bits_append, List.take_append, List.take_append, List.append_cancel_left_eq, hprefix,
    ← UInt32.toNat_inj, UInt32.toNat_and, UInt32.toNat_and, ntohl_toNat ha, ntohl_toNat hb,
    and_mask_iff (mappedMask_testBit h) (number_lt_32 ha) (number_lt_32 hb)]
  by_cases hn : n ≤ 96
  · have hpow : 2 ^ 32 ≤ 2 ^ (128 - n) := Nat.pow_le_pow_right (by omega) (by omega)
    have hdiv : ∀ l : Bytes, l.length = 4 → number l / 2 ^ (128 - n) = 0 := fun l hl =>
      Nat.div_eq_of_lt (Nat.lt_of_lt_of_le (number_lt_32 hl) hpow)
    rw [hdiv a ha, hdiv b hb, Nat.sub_eq_zero_of_le hn]
    simp
  · rw [take_bits_iff (by omega) (by omega), ha]
    have hshift : 8 * 4 - (n - 96) = 128 - n := by omega
    rw [hshift]

/-- **The walk over the bytes compares the first bits.** -/
theorem matchBytes_iff {a b : Bytes} (hlen : a.length = b.length) (h0 : 0 < n) (h : n ≤ 8 * a.length) :
    matchBytes n a b = true ↔ (bits a).take n = (bits b).take n := by
  induction a generalizing b n with
  | nil => simp at h; omega
  | cons x a ih =>
    cases b with
    | nil => simp at hlen
    | cons y b =>
      rw [List.length_cons, List.length_cons, Nat.add_right_cancel_iff] at hlen
      rw [List.length_cons] at h
      rw [matchBytes]
      by_cases h8 : 8 ≤ n
      · rw [if_pos h8, take_cons_iff h8]
        by_cases hxy : x = y
        · by_cases hmore : 8 < n
          · simp [hxy, hmore, ih hlen (n := n - 8) (by omega) (by omega)]
          · have hlast : n - 8 = 0 := by omega
            simp [hxy, hmore, hlast]
        · simp [hxy]
      · rw [if_neg h8, take_cons_iff_of_le (by omega)]
        have hmore : ¬8 < n := by omega
        simp [hmore, Nat.shiftRight_eq_div_pow]

/-! ## The networks -/

/-- An IPv4 address as the address `::ffff:a.b.c.d`. -/
def InAddr.mapped (a : InAddr) : In6Addr := ⟨mappedPrefix ++ a.1, by rw [List.length_append, a.2]; rfl⟩

/-- The IPv4 address of a client, whether its socket has the family `AF_INET` or a mapped address. -/
def SockAddr.ipv4 : SockAddr → Option InAddr
  | .inet a => some a
  | .inet6 a => if a.v4Mapped then some ⟨a.1.drop 12, by rw [List.length_drop, a.2]⟩ else none
  | .other => none

def SockAddr.ipv6 : SockAddr → Option In6Addr
  | .inet a => some a.mapped
  | .inet6 a => some a
  | .other => none

inductive Network
  | inet (addr : InAddr) (nmBits : Nat)
  | inet6 (addr : In6Addr) (nmBits : Nat)

/-- **What `inet_pton` reads**: hexadecimal digits, dots and colons, less than `INET6_ADDRSTRLEN` of them, and no text as
an address of both families. -/
structure Pton.Lawful (pton : Pton) : Prop where
  text : ∀ s, (pton.inet s).isSome ∨ (pton.inet6 s).isSome →
    s.length < 46 ∧ s.all (fun c => lightIsxdigit c || c == chr '.' || c == chr ':') = true
  disjoint : ∀ s, (pton.inet6 s).isSome → pton.inet s = none

namespace Network

/-- **The client is in the network**: its first bits are those of the network. -/
def Contains : Network → SockAddr → Prop
  | inet addr n, rmt => ∃ a, rmt.ipv4 = some a ∧ (bits addr.1).take n = (bits a.1).take n
  | inet6 addr n, rmt => ∃ a, rmt.ipv6 = some a ∧ (bits addr.1).take n = (bits a.1).take n

/-- How many bits the mask has, and how many the address. -/
def nmBits : Network → Nat
  | inet _ n => n
  | inet6 _ n => n

def width : Network → Nat
  | inet _ _ => 32
  | inet6 _ _ => 128

/-- The address of the network as `inet_pton` reads it. -/
def Reads (pton : Pton) (addrstr : Bytes) : Network → Prop
  | inet addr _ => pton.inet addrstr = some addr
  | inet6 addr _ => pton.inet6 addrstr = some addr

/-- A network of IPv6 addresses that has mapped addresses but is not itself written as one. -/
def Straddles : Network → Prop
  | inet _ _ => False
  | inet6 addr n => addr.v4Mapped = false ∧ ∃ a : InAddr, (bits addr.1).take n = (bits a.mapped.1).take n

end Network

theorem mapped_v4Mapped (a : InAddr) : a.mapped.v4Mapped = true := by
  simp [In6Addr.v4Mapped, InAddr.mapped, mappedPrefix]

theorem mapped_of_v4Mapped {a : In6Addr} (h : a.v4Mapped = true) : a.1 = mappedPrefix ++ a.1.drop 12 := by
  rw [In6Addr.v4Mapped, beq_iff_eq] at h
  rw [← h, List.take_append_drop]

/-- **A mapped address and the address of an `AF_INET` socket are one client.** -/
theorem contains_mapped (net : Network) (a : InAddr) :
    net.Contains (.inet6 a.mapped) ↔ net.Contains (.inet a) := by
  cases net with
  | inet addr n =>
    have hdrop : a.mapped.1.drop 12 = a.1 := by
      show (mappedPrefix ++ a.1).drop 12 = a.1
      exact List.drop_left' rfl
    simp [Network.Contains, SockAddr.ipv4, mapped_v4Mapped, hdrop]
  | inet6 addr n => rfl

/-- **The comparison**, for a mask in range. -/
theorem addrstr_contains (hpton : pton.Lawful) {net : Network} {addrstr : Bytes} (hread : net.Reads pton addrstr) (h0 : 0 < net.nmBits)
    (h : net.nmBits ≤ net.width) (rmt : SockAddr) (hfamily : net.Straddles → ∀ a, rmt ≠ .inet a) :
    ∃ b, configAddrstrEqRemoteIpMask pton addrstr net.nmBits rmt = some b ∧ (b = true ↔ net.Contains rmt) := by
  cases net with
  | inet addr n =>
    change 0 < n at h0
    change n ≤ 32 at h
    have hn : ¬n > 32 := Nat.not_lt.mpr h
    have hread4 : pton.inet addrstr = some addr := hread
    show ∃ b, configAddrstrEqRemoteIpMask pton addrstr n rmt = some b ∧ _
    unfold configAddrstrEqRemoteIpMask
    simp only [hread4, if_neg hn]
    cases rmt with
    | inet a =>
      refine ⟨_, rfl, ?_⟩
      rw [beq_iff_eq, and_inetMask addr.2 a.2 h0 h]
      simp [Network.Contains, SockAddr.ipv4]
    | inet6 a =>
      have hdrop : (a.1.drop 12).length = 4 := by rw [List.length_drop, a.2]
      by_cases hmapped : a.v4Mapped = true
      · refine ⟨_, if_pos hmapped, ?_⟩
        rw [beq_iff_eq, and_inetMask addr.2 hdrop h0 h]
        simp [Network.Contains, SockAddr.ipv4, hmapped]
      · exact ⟨false, if_neg hmapped, by simp [Network.Contains, SockAddr.ipv4, hmapped]⟩
    | other => exact ⟨false, rfl, by simp [Network.Contains, SockAddr.ipv4]⟩
  | inet6 addr n =>
    change 0 < n at h0
    change n ≤ 128 at h
    have hn : ¬n > 128 := Nat.not_lt.mpr h
    have hread6 : pton.inet6 addrstr = some addr := hread
    have hread4 : pton.inet addrstr = none := hpton.disjoint addrstr (by rw [hread6]; rfl)
    show ∃ b, configAddrstrEqRemoteIpMask pton addrstr n rmt = some b ∧ _
    unfold configAddrstrEqRemoteIpMask
    simp only [hread4, hread6, if_neg hn]
    cases rmt with
    | inet6 a =>
      refine ⟨_, rfl, ?_⟩
      rw [matchBytes_iff (by rw [addr.2, a.2]) h0 (by rw [addr.2]; exact h)]
      simp [Network.Contains, SockAddr.ipv6]
    | inet a =>
      by_cases hmapped : addr.v4Mapped = true
      · have hdrop : (addr.1.drop 12).length = 4 := by rw [List.length_drop, addr.2]
        refine ⟨_, if_pos hmapped, ?_⟩
        rw [beq_iff_eq, and_mappedMask hdrop a.2 h, ← mapped_of_v4Mapped hmapped]
        simp [Network.Contains, SockAddr.ipv6, InAddr.mapped]
      · refine ⟨false, if_neg hmapped, ?_⟩
        have hout : ¬(bits addr.1).take n = (bits a.mapped.1).take n := fun heq =>
          hfamily ⟨Bool.eq_false_iff.mpr hmapped, a, heq⟩ a rfl
        simpa [Network.Contains, SockAddr.ipv6] using hout
    | other => exact ⟨false, rfl, by simp [Network.Contains, SockAddr.ipv6]⟩

theorem addrbuf_eq (hpton : pton.Lawful) {net : Network} {addrstr mask : Bytes} (hread : net.Reads pton addrstr)
    (hmask : strtol 10 mask = ((net.nmBits : Int), [])) (h : net.nmBits ≤ net.width) (rmt : SockAddr) :
    (cstr (addrstr ++ chr '/' :: mask)).idxOf? (chr '/') = some addrstr.length ∧
      configAddrbufEqRemoteIpMask pton (addrstr ++ chr '/' :: mask) addrstr.length rmt =
        if net.nmBits = 0 then none else configAddrstrEqRemoteIpMask pton addrstr net.nmBits rmt := by
  have hsome : (pton.inet addrstr).isSome ∨ (pton.inet6 addrstr).isSome := by
    cases net with
    | inet addr n => exact Or.inl (Option.isSome_iff_exists.mpr ⟨addr, hread⟩)
    | inet6 addr n => exact Or.inr (Option.isSome_iff_exists.mpr ⟨addr, hread⟩)
  obtain ⟨hlen, htext⟩ := hpton.text addrstr hsome
  have hout : ∀ c, (lightIsxdigit c || c == chr '.' || c == chr ':') = Bool.false → c ∉ addrstr := fun c hc hmem => by
    have hchar := List.all_eq_true.mp htext c hmem
    rw [hc] at hchar
    cases hchar
  have hslash : chr '/' ∉ addrstr := hout _ (by decide)
  have hnul : ∀ c ∈ addrstr, decide (c ≠ 0) = Bool.true := by
    intro c hc
    rw [decide_eq_true_eq]
    rintro rfl
    exact hout 0 (by decide) hc
  have hcstr : cstr (addrstr ++ chr '/' :: mask) = addrstr ++ chr '/' :: cstr mask := by
    rw [cstr, List.takeWhile_append_of_pos hnul, List.takeWhile_cons_of_pos (by decide)]
    rfl
  have hwidth : net.width ≤ 128 := by
    cases net with
    | inet addr n =>
      show 32 ≤ 128
      omega
    | inet6 addr n =>
      show 128 ≤ 128
      omega
  have hint : toInt (net.nmBits : Int) = net.nmBits := by
    rw [toInt, Int.bmod_def]
    omega
  refine ⟨by rw [hcstr, idxOf?_append_cons hslash], ?_⟩
  have hdrop : (addrstr ++ chr '/' :: mask).drop (addrstr.length + 1) = mask := by
    rw [← List.drop_drop, List.drop_left]
    rfl
  unfold configAddrbufEqRemoteIpMask
  rw [hdrop, hmask]
  simp only [hint, List.take_left, Int.toNat_natCast]
  rw [if_neg (by simp), if_neg (c := addrstr.length ≥ sizeofAddrstr) (by unfold sizeofAddrstr; omega)]
  by_cases hzero : net.nmBits = 0
  · rw [if_pos hzero, if_pos (by omega)]
  · rw [if_neg hzero, if_neg (by omega)]

/-- **A condition on the remote address says whether the client is in the network.** -/
theorem remoteIp_contains (hpton : pton.Lawful) {net : Network} {addrstr mask : Bytes} (hread : net.Reads pton addrstr)
    (hmask : strtol 10 mask = ((net.nmBits : Int), [])) (h : net.nmBits ≤ net.width) :
    (0 < net.nmBits →
      (∀ rmt, (net.Straddles → ∀ a, rmt ≠ .inet a) →
        (remoteIpMask pton .eq (addrstr ++ chr '/' :: mask) rmt = some .true ↔ net.Contains rmt) ∧
        (remoteIpMask pton .ne (addrstr ++ chr '/' :: mask) rmt = some .true ↔ ¬net.Contains rmt)) ∧
      (¬net.Straddles → ∀ a cond, remoteIpMask pton cond (addrstr ++ chr '/' :: mask) (.inet6 (InAddr.mapped a)) =
        remoteIpMask pton cond (addrstr ++ chr '/' :: mask) (.inet a))) ∧
      (net.nmBits = 0 → ∀ rmt, remoteIpMask pton .eq (addrstr ++ chr '/' :: mask) rmt = some .false ∧
        remoteIpMask pton .ne (addrstr ++ chr '/' :: mask) rmt = some .false) := by
  refine ⟨fun h0 => ⟨fun rmt hfamily => ?_, fun hstraddles a cond => ?_⟩, fun hzero rmt => ?_⟩
  · obtain ⟨hidx, hbuf⟩ := addrbuf_eq hpton hread hmask h rmt
    obtain ⟨b, hb, hcontains⟩ := addrstr_contains hpton hread h0 h rmt hfamily
    rw [if_neg (by omega), hb] at hbuf
    cases b <;> simp [remoteIpMask, hidx, hbuf, ← hcontains]
  · obtain ⟨hidx, hbuf⟩ := addrbuf_eq hpton hread hmask h (.inet a)
    obtain ⟨-, hbuf'⟩ := addrbuf_eq hpton hread hmask h (.inet6 a.mapped)
    obtain ⟨b, hb, hcontains⟩ := addrstr_contains hpton hread h0 h (.inet a) fun hs => absurd hs hstraddles
    obtain ⟨b', hb', hcontains'⟩ := addrstr_contains hpton hread h0 h (.inet6 a.mapped) fun hs => absurd hs hstraddles
    have hsame : b' = b := by
      rw [Bool.eq_iff_iff, hcontains, hcontains', contains_mapped]
    rw [if_neg (by omega), hb] at hbuf
    rw [if_neg (by omega), hb', hsame] at hbuf'
    simp [remoteIpMask, hidx, hbuf, hbuf']
  · obtain ⟨hidx, hbuf⟩ := addrbuf_eq hpton hread hmask h rmt
    rw [if_pos hzero] at hbuf
    simp [remoteIpMask, hidx, hbuf]

def samplePton : Pton where
  inet s := if s = ascii "10.0.0.0" then some ⟨[10, 0, 0, 0], rfl⟩ else none
  inet6 s := if s = ascii "::" then some ⟨List.replicate 16 0, rfl⟩ else none

theorem samplePton_lawful : samplePton.Lawful where
  text s h := by
    obtain rfl | rfl : s = ascii "10.0.0.0" ∨ s = ascii "::" := by
      unfold samplePton at h
      simpa using h
    · decide
    · decide
  disjoint s h := by
    obtain rfl : s = ascii "::" := by
      unfold samplePton at h
      simpa using h
    rfl

/-- The client `10.1.2.3` is in `10.0.0.0/8`, on a socket of either family. -/
theorem remoteIp_contains_sample :
    remoteIpMask samplePton .eq (ascii "10.0.0.0/8") (.inet6 (InAddr.mapped ⟨[10, 1, 2, 3], rfl⟩)) =
        remoteIpMask samplePton .eq (ascii "10.0.0.0/8") (.inet ⟨[10, 1, 2, 3], rfl⟩) ∧
      remoteIpMask samplePton .eq (ascii "10.0.0.0/8") (.inet ⟨[10, 1, 2, 3], rfl⟩) = some .true ∧
      remoteIpMask samplePton .eq (ascii "10.0.0.0/8") (.inet ⟨[11, 1, 2, 3], rfl⟩) = some .false := by
  have hmask : strtol 10 (ascii "8") = (((Network.inet ⟨[10, 0, 0, 0], rfl⟩ 8).nmBits : Int), []) := by decide
  have hread : (Network.inet ⟨[10, 0, 0, 0], rfl⟩ 8).Reads samplePton (ascii "10.0.0.0") := rfl
  have hbits : (Network.inet ⟨[10, 0, 0, 0], rfl⟩ 8).nmBits = 8 := rfl
  have hrange : (Network.inet ⟨[10, 0, 0, 0], rfl⟩ 8).nmBits ≤ (Network.inet ⟨[10, 0, 0, 0], rfl⟩ 8).width := by
    show 8 ≤ 32
    omega
  refine ⟨?_, by decide, by decide⟩
  exact ((remoteIp_contains samplePton_lawful hread hmask hrange).1 (by omega)).2 (fun h => h) _ _

/-- No client is in a network without a mask, and `::/8` has the mapped address of a client but not the client. -/
theorem mask_zero :
    (∃ net : Network, net.Reads samplePton (ascii "10.0.0.0") ∧ net.nmBits = 0 ∧
      net.Contains (.inet ⟨[10, 1, 2, 3], rfl⟩)) ∧
      remoteIpMask samplePton .eq (ascii "10.0.0.0/0") (.inet ⟨[10, 1, 2, 3], rfl⟩) = some .false ∧
      remoteIpMask samplePton .eq (ascii "::/8") (.inet ⟨[10, 1, 2, 3], rfl⟩) = some .false ∧
      remoteIpMask samplePton .eq (ascii "::/8") (.inet6 (InAddr.mapped ⟨[10, 1, 2, 3], rfl⟩)) = some .true := by
  refine ⟨⟨.inet ⟨[10, 0, 0, 0], rfl⟩ 0, rfl, rfl, ⟨[10, 1, 2, 3], rfl⟩, rfl, rfl⟩, ?_⟩
  decide

end Lighttpd.Config
