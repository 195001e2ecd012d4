import Lighttpd.Base.Itostr
import Lighttpd.Lib.Service
import Mathlib.Data.List.Induction

/-!
# The cache of addresses in text (`inet_ntop_cache.c`)

`inet_ntop_cache_get_ip` keeps the text of the addresses that it has been asked for, in entries that are told apart by the
family and the bytes of the address. `inet_ntop` itself is a parameter.

- `getIp_hit`, `getIp_miss`: only the first entry is ever written;
- `getIp_coherent_iff`: the calls that all get the text of their own address.
-/

namespace Lighttpd.InetNtopCache

/-! ## The source -/

/-- `sa_family`; `unspec` is that of an entry of a new server. -/
inductive Family
  | unspec
  | unix
  | inet
  | inet6
deriving DecidableEq, Repr

/-- `sock_addr`: what is read of the address of each family. -/
inductive SockAddr
  | un (path : Bytes)
  | ipv4 (addr : Vector Byte 4)
  | ipv6 (addr : Vector Byte 16)
deriving DecidableEq, Repr

def SockAddr.family : SockAddr → Family
  | .un _ => .unix
  | .ipv4 _ => .inet
  | .ipv6 _ => .inet6

def inetNtopCacheMax : Nat := 4

/-- `inet_ntop_cache_type`. `addr` has the bytes of the union. -/
structure Entry where
  family : Family
  addr : Bytes
  b2 : Bytes
  ts : Int
deriving DecidableEq, Repr

def unused : Entry := ⟨.unspec, List.replicate 16 0, [], 0⟩

def initial : List Entry := List.replicate inetNtopCacheMax unused

/-- The texts of `inet_ntop` for `AF_INET` and `AF_INET6`. They fit in `b2`. -/
structure InetNtop where
  inet : Bytes → Bytes
  inet6 : Bytes → Bytes

/-- `inet_ntop`: for another family it fails and writes nothing. -/
def InetNtop.text (ntop : InetNtop) : SockAddr → Option Bytes
  | .un _ => none
  | .ipv4 addr => some (ntop.inet addr.toList)
  | .ipv6 addr => some (ntop.inet6 addr.toList)

def Entry.hit (e : Entry) (addr : SockAddr) : Bool :=
  e.ts != 0 && e.family == addr.family &&
    match addr with
    | .un _ => false
    | .ipv4 a => e.addr.take 4 == a.toList
    | .ipv6 a => e.addr == a.toList

def Entry.fill (ntop : InetNtop) (curTs : Int) (addr : SockAddr) (e : Entry) : Entry where
  family := addr.family
  addr := match addr with
    | .un _ => e.addr
    | .ipv4 a => a.toList ++ e.addr.drop 4
    | .ipv6 a => a.toList
  b2 := (ntop.text addr).getD e.b2
  ts := curTs

/-- `inet_ntop_cache_get_ip`, at the time `call.1` for the address `call.2`: the text, and the cache. -/
def getIp (ntop : InetNtop) (cache : List Entry) (call : Int × SockAddr) : Option (Bytes × List Entry) :=
  match cache.find? (·.hit call.2) with
  | some e => some (e.b2, cache)
  | none => do
    -- `ndx` is `0`
    let e ← cache[0]?
    some ((e.fill ntop call.1 call.2).b2, cache.set 0 (e.fill ntop call.1 call.2))

/-! ## One call -/

/-- A cache of which only the first entry has been used. -/
def cacheOf (e : Entry) : List Entry := e :: List.replicate 3 unused

variable {ntop : InetNtop}

theorem find?_cacheOf (e : Entry) (addr : SockAddr) :
    (cacheOf e).find? (·.hit addr) = if e.hit addr then some e else none := by
  have hunused : unused.hit addr = false := by simp [Entry.hit, unused]
  cases h : e.hit addr <;> simp [cacheOf, h, hunused]

theorem getIp_hit {e : Entry} {call : Int × SockAddr} (h : e.hit call.2 = true) :
    getIp ntop (cacheOf e) call = some (e.b2, cacheOf e) := by
  simp [getIp, find?_cacheOf, h]

theorem getIp_miss {e : Entry} {call : Int × SockAddr} (h : e.hit call.2 = false) :
    getIp ntop (cacheOf e) call =
      some ((e.fill ntop call.1 call.2).b2, cacheOf (e.fill ntop call.1 call.2)) := by
  simp only [getIp, find?_cacheOf, h, Bool.false_eq_true, if_false]
  rfl

/-- The text of an entry is that of its address. -/
structure Entry.Sound (ntop : InetNtop) (e : Entry) : Prop where
  inet : e.ts ≠ 0 → e.family = .inet → e.b2 = ntop.inet (e.addr.take 4)
  inet6 : e.ts ≠ 0 → e.family = .inet6 → e.b2 = ntop.inet6 e.addr

theorem Entry.Sound.text {e : Entry} {addr : SockAddr} (h : e.Sound ntop) (hhit : e.hit addr = true) :
    ntop.text addr = some e.b2 := by
  cases addr with
  | un path => simp [Entry.hit] at hhit
  | ipv4 a =>
    simp only [Entry.hit, Bool.and_eq_true, bne_iff_ne, beq_iff_eq] at hhit
    obtain ⟨⟨hts, hfamily⟩, haddr⟩ := hhit
    rw [h.inet hts hfamily, haddr]
    rfl
  | ipv6 a =>
    simp only [Entry.hit, Bool.and_eq_true, bne_iff_ne, beq_iff_eq] at hhit
    obtain ⟨⟨hts, hfamily⟩, haddr⟩ := hhit
    rw [h.inet6 hts hfamily, haddr]
    rfl

theorem fill_sound (e : Entry) (curTs : Int) (addr : SockAddr) : (e.fill ntop curTs addr).Sound ntop := by
  cases addr with
  | un path => exact ⟨by simp [Entry.fill, SockAddr.family], by simp [Entry.fill, SockAddr.family]⟩
  | ipv4 a =>
    have htake : (a.toList ++ e.addr.drop 4).take 4 = a.toList := List.take_left' (by simp)
    exact ⟨fun _ _ => by simp [Entry.fill, htake, InetNtop.text], by simp [Entry.fill, SockAddr.family]⟩
  | ipv6 a => exact ⟨by simp [Entry.fill, SockAddr.family], fun _ _ => by simp [Entry.fill, InetNtop.text]⟩

/-! ## All calls -/

/-- The text of an address. That of a local socket is its path. -/
def textOf (ntop : InetNtop) : SockAddr → Bytes
  | .un path => cstr path
  | .ipv4 addr => ntop.inet addr.toList
  | .ipv6 addr => ntop.inet6 addr.toList

/-- The text of the last address that `inet_ntop` has a text for. -/
def lastText (ntop : InetNtop) (calls : List (Int × SockAddr)) : Bytes :=
  (calls.reverse.findSome? fun call => ntop.text call.2).getD []

/-- A call for a local socket gets the text that is there. -/
def Fine (last : Bytes) (call : Int × SockAddr) : Prop := ∀ path, call.2 = .un path → last = cstr path

def Holds (ntop : InetNtop) (cache : List Entry) (last : Bytes) : Prop :=
  ∃ e, cache = cacheOf e ∧ e.b2 = last ∧ e.Sound ntop

/-- The right text, for an address that `inet_ntop` has a text for. -/
theorem right_of_text {addr : SockAddr} {text : Bytes} (h : ntop.text addr = some text) :
    text = textOf ntop addr ∧ ∀ path, addr ≠ .un path := by
  cases addr with
  | un path => cases h
  | ipv4 a => exact ⟨(Option.some.inj h).symm, fun _ h => by cases h⟩
  | ipv6 a => exact ⟨(Option.some.inj h).symm, fun _ h => by cases h⟩

/-- **The cache follows the calls**: it holds the text of the last address that has one. -/
theorem follows (ntop : InetNtop) : Service.Follows (getIp ntop) (fun _ => true)
    (fun call text => text = textOf ntop call.2) Fine (fun last call => (ntop.text call.2).getD last) (Holds ntop) where
  stops := fun _ h => by cases h
  replies := by
    rintro cache last ⟨curTs, addr⟩ ⟨e, rfl, rfl, hsound⟩ -
    cases hhit : e.hit addr with
    | true =>
      have htext := hsound.text hhit
      obtain ⟨hright, hne⟩ := right_of_text htext
      refine ⟨_, _, getIp_hit hhit, iff_of_true hright fun path h => absurd h (hne path), fun _ => ⟨e, rfl, ?_, hsound⟩⟩
      dsimp only
      rw [htext, Option.getD_some]
    | false =>
      refine ⟨_, _, getIp_miss hhit, ?_, fun _ => ⟨_, rfl, rfl, fill_sound e curTs addr⟩⟩
      dsimp only [Entry.fill]
      cases htext : ntop.text addr with
      | some text =>
        obtain ⟨hright, hne⟩ := right_of_text htext
        exact iff_of_true hright fun path h => absurd h (hne path)
      | none =>
        cases addr with
        | un path => simp [Fine, textOf]
        | ipv4 a => cases htext
        | ipv6 a => cases htext

theorem foldl_text (before : List (Int × SockAddr)) :
    before.foldl (fun last call => (ntop.text call.2).getD last) [] = lastText ntop before := by
  induction before using List.reverseRecOn with
  | nil => rfl
  | append_singleton before call ih =>
    rw [List.foldl_concat, ih, lastText, lastText, List.reverse_concat, List.findSome?_cons]
    cases ntop.text call.2 <;> rfl

/-- **Every call gets the text of its own address, if and only if each call for a local socket comes when the text that
was written last is its path.** -/
theorem getIp_coherent_iff (ntop : InetNtop) (calls : List (Int × SockAddr)) :
    List.Forall₂ (fun call text => text = textOf ntop call.2) calls (Service.answers (getIp ntop) initial calls) ↔
      ∀ before curTs path behind, calls = before ++ (curTs, .un path) :: behind → lastText ntop before = cstr path := by
  have hinitial : Holds ntop initial [] := ⟨unused, rfl, rfl, by simp [unused], by simp [unused]⟩
  have hall : calls.takeWhile (fun _ => true) = calls := List.takeWhile_eq_self_iff.mpr fun _ _ => rfl
  have hiff := (follows ntop).forall₂_answers_iff hinitial calls
  rw [hall, Service.proper_iff] at hiff
  rw [hiff]
  simp only [foldl_text]
  constructor
  · intro h before curTs path behind heq
    exact h before _ behind heq path rfl
  · rintro h before ⟨curTs, addr⟩ behind heq path rfl
    exact h before curTs path behind heq

/-- `inet_ntop` for IPv4: four numbers with dots. -/
def dotted (addr : Bytes) : Bytes := List.intercalate [chr '.'] (addr.map fun b => liUtostrn b.toNat)

def sampleNtop : InetNtop := ⟨dotted, fun _ => []⟩

def sampleCalls : List (Int × SockAddr) := [(1, .ipv4 #v[10, 0, 0, 1]), (2, .un (ascii "/tmp/client"))]

/-- A client of a local socket is taken for the one that came before. -/
theorem getIp_stale : ¬ List.Forall₂ (fun call text => text = textOf sampleNtop call.2) sampleCalls
    (Service.answers (getIp sampleNtop) initial sampleCalls) := by
  have hanswers : Service.answers (getIp sampleNtop) initial sampleCalls = [ascii "10.0.0.1", ascii "10.0.0.1"] := by
    decide
  rw [hanswers, sampleCalls, List.forall₂_cons, List.forall₂_cons]
  rintro ⟨-, hlocal, -⟩
  exact absurd hlocal (by decide)

end Lighttpd.InetNtopCache
