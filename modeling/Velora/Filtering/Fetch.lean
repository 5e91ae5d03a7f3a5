import Velora.Clients.Service
import Velora.Filtering.Lists

/-!
# Fetching a list

`fetchHosts` of `internal/filtering/source.go`. The addresses a name resolves to are checked inside `DialContext`, all of them
before the first is dialled. That an IPv6 address is in 2000::/3 is tested on the first digit of its text; a group is printed
without leading zeros, so an address whose first group is 2, 3, 20 to 3f or 200 to 3ff passes as well (`publicAddress_iff`).
-/

namespace Velora.Filtering

open Velora.Lib Velora.Lib.Text Velora.Lib.Ip
open Velora.Zones (byteLen)
open Velora.Clients (Addr)

/-! ### Public addresses -/

/-- `IsGlobalUnicast`; private addresses count. -/
def isGlobalUnicast (a : Addr) : Bool :=
  match a.ip with
  | [] => false
  | [x, y, z, w] =>
    ¬ ([x, y, z, w] = [0, 0, 0, 0] ∨ [x, y, z, w] = [255, 255, 255, 255] ∨ x = 127 ∨ x &&& 0xf0 = 0xe0 ∨ x = 169 ∧ y = 254)
  | x :: y :: rest =>
    ¬ ((a.zone = [] ∧ x :: y :: rest = List.replicate 16 0) ∨ x :: y :: rest = List.replicate 15 0 ++ [1] ∨ x = 0xff ∨
      x = 0xfe ∧ y &&& 0xc0 = 0x80)
  | _ => true

/-- `IsPrivate`. -/
def isPrivate (a : Addr) : Bool :=
  match a.ip with
  | [x, y, _, _] => x = 10 ∨ x = 172 ∧ y &&& 0xf0 = 16 ∨ x = 192 ∧ y = 168
  | x :: _ => x &&& 0xfe = 0xfc
  | [] => false

/-- Special-use ranges, which may still satisfy `IsGlobalUnicast`. -/
def specialUse : List Prefix :=
  ["0.0.0.0/8", "100.64.0.0/10", "192.0.0.0/24", "192.0.2.0/24", "198.18.0.0/15", "198.51.100.0/24", "203.0.113.0/24",
    "240.0.0.0/4", "2001::/23", "2001:db8::/32", "2002::/16", "64:ff9b::/96", "64:ff9b:1::/48"].filterMap
      (fun s => parseNetipPrefix s.toList)

/-- `addr.String()`. -/
def addrText (a : Addr) : Str :=
  if a.ip = [] then "invalid IP".toList else addrString a.ip ++ (if a.zone = [] then [] else '%' :: a.zone)

/-- `publicAddress`; no prefix contains an address with a zone. -/
def publicAddress (addr : Addr) : Bool :=
  let addr := addr.unmap
  if ¬ isGlobalUnicast addr ∨ isPrivate addr then false
  else if specialUse.any (fun p => addr.zone = [] ∧ p.contains addr.ip) then false
  else addr.ip.length = 4 || ['2'].isPrefixOf (addrText addr) || ['3'].isPrefixOf (addrText addr)

/-! ### The source URL -/

/-- What `url.Parse` makes of a text. -/
structure URL where
  scheme : Str
  hasUser : Bool
  hostname : Str
  port : Str
  /-- `Opaque` -/
  rootless : Str
  fragment : Str

/-- `netip.ParseAddr`. -/
def parseZoned (s : Str) : Option Addr :=
  let ip := s.takeWhile (· ≠ '%')
  let zone := (s.dropWhile (· ≠ '%')).drop 1
  if '%' ∈ s ∧ zone = [] then none
  else (parseAddr ip).bind (fun bs =>
    if h : bs.length = 16 ∨ bs.length = 4 ∧ zone = [] then
      some ⟨bs, zone, Or.inr (h.elim Or.inr (fun h => Or.inl h.1))⟩
    else none)

/-- `ValidateSourceURL`, with `url.Parse` of the library. -/
def validateSourceURL (parse : Str → Option URL) (raw : Str) : Except Err Unit :=
  let invalid := Except.error (Err.invalid "use an HTTP(S) URL without credentials or fragments")
  match parse raw with
  | none => invalid
  | some u =>
    if byteLen raw > 2048 ∨ u.hasUser ∨ u.hostname = [] ∨ u.rootless ≠ [] ∨ u.fragment ≠ [] ∨
        (u.scheme ≠ "https".toList ∧ u.scheme ≠ "http".toList) then invalid
    else if u.port ≠ [] ∧ u.port ≠ "80".toList ∧ u.port ≠ "443".toList then
      .error (.invalid "only ports 80 and 443 are allowed")
    else
      match parseZoned u.hostname with
      | some ip => if publicAddress ip then .ok () else .error (.invalid "source address must be public")
      | none => if (name u.hostname).isSome then .ok () else .error (.invalid "invalid source hostname")

/-! ### Dialling -/

/-- `net.JoinHostPort`. -/
def joinHostPort (host port : Str) : Str := if ':' ∈ host then '[' :: host ++ ']' :: ':' :: port else host ++ ':' :: port

/-- The port of an address that `net.SplitHostPort` accepts. -/
def portOf (address : Str) : Str := (address.reverse.takeWhile (· ≠ ':')).reverse

/-- `netip.AddrFromSlice`. -/
def addrFromSlice (ip : List UInt8) : Option Addr :=
  if h : ip.length = 4 ∨ ip.length = 16 then some ⟨ip, [], Or.inr h⟩ else none

/-- One call of `DialContext` by the transport: the address it asks for, what the resolver makes of its host, and the errors
of the dialler. -/
structure Ask where
  address : Str
  ips : Except Str (List (List UInt8))
  dial : Str → Option Str

/-- The loop over the addresses: those it dials, and how it ends. -/
def dialLoop (dial : Str → Option Str) (port : Str) : List (List UInt8) → Except Str Unit → List Str × Except Str Unit
  | [], last => ([], last)
  | ip :: ips, _ =>
    let address := joinHostPort (ipString ip) port
    match dial address with
    | none => ([address], .ok ())
    | some e =>
      let (rest, result) := dialLoop dial port ips (.error e)
      (address :: rest, result)

/-- `DialContext`: the addresses that are dialled, and the result. -/
def dialContext (a : Ask) : List Str × Except Str Unit :=
  match splitHostPort a.address with
  | .error e => ([], .error e.toList)
  | .ok _ =>
    match a.ips with
    | .error _ => ([], .error "source resolution failed".toList)
    | .ok ips =>
      if ips.length = 0 ∨ ips.length > 16 then ([], .error "invalid source address count".toList)
      else if ips.any (fun ip => ¬ (addrFromSlice ip).any publicAddress) then
        ([], .error "source resolves to a non-public address".toList)
      else dialLoop a.dial (portOf a.address) ips (.ok ())

/-- What the server answers. -/
structure Response where
  statusCode : ℕ
  contentLength : ℤ
  body : Except Str (List UInt8)

/-- `fetchHosts`: what every call of `DialContext` dials, and the result. The transport makes these calls, and brings the
response or an error. -/
def fetchHosts (parse : Str → Option URL) (raw : Str) (asks : List Ask) (response : Except Str Response) :
    List (Ask × List Str) × Except Err (List Str) :=
  match validateSourceURL parse raw with
  | .error e => ([], .error e)
  | .ok () =>
    (asks.map (fun a => (a, (dialContext a).1)),
      match response with
      | .error _ => .error (.failed "source download failed")
      | .ok r =>
        if r.statusCode ≠ 200 then .error (.failed ("source returned HTTP " ++ toString r.statusCode))
        else if r.contentLength > maxListBytes then .error (.failed "source exceeds 8 MiB")
        else
          match r.body with
          | .error _ => .error (.failed "source read failed")
          | .ok data =>
            let data := data.take (maxListBytes + 1)
            if data.length > maxListBytes then .error (.failed "source exceeds 8 MiB") else parseHostsBytes data)

/-! ### What is public -/

/-- The private, loopback, link-local, multicast and unspecified ranges of IPv4. -/
def closedRanges : List Prefix :=
  [⟨[0, 0, 0, 0], 32, by decide, by decide⟩, ⟨[10, 0, 0, 0], 8, by decide, by decide⟩,
    ⟨[127, 0, 0, 0], 8, by decide, by decide⟩, ⟨[169, 254, 0, 0], 16, by decide, by decide⟩,
    ⟨[172, 16, 0, 0], 12, by decide, by decide⟩, ⟨[192, 168, 0, 0], 16, by decide, by decide⟩,
    ⟨[224, 0, 0, 0], 4, by decide, by decide⟩]

/-- 2000::/3. -/
def globalRange : Prefix := ⟨0x20 :: List.replicate 15 0, 3, by decide, by decide⟩

/-- A public address: an IPv4 address outside the closed ranges or an IPv6 address in 2000::/3, and outside the special-use
ranges. -/
def Public (ip : List UInt8) : Prop :=
  ((unmapAddr ip).length = 4 ∧ (∀ p ∈ closedRanges, ¬ p.Covers (unmapAddr ip)) ∨ globalRange.Covers (unmapAddr ip)) ∧
    ∀ p ∈ specialUse, ¬ p.Covers (unmapAddr ip)

/-- The numbers of one to three digits whose first digit is 2 or 3. -/
def ShortGroup (w : ℕ) : Prop := w = 2 ∨ w = 3 ∨ 0x20 ≤ w ∧ w < 0x40 ∨ 0x200 ≤ w ∧ w < 0x400

instance (w : ℕ) : Decidable (ShortGroup w) :=
  inferInstanceAs (Decidable (w = 2 ∨ w = 3 ∨ 0x20 ≤ w ∧ w < 0x40 ∨ 0x200 ≤ w ∧ w < 0x400))

/-- An IPv6 address whose first group has less than four digits, the first of them 2 or 3. -/
def Short (ip : List UInt8) : Prop := ip.length = 16 ∧ ∃ w, (words ip).head? = some w ∧ ShortGroup w

/-- A private, loopback, link-local or multicast IPv4 address is in one of the ranges. -/
theorem closed_iff (x y z w : UInt8) (hx : x ≠ 0) (hx' : x &&& 0xf0 ≠ 0xf0) :
    isGlobalUnicast ⟨[x, y, z, w], [], Or.inr (Or.inl rfl)⟩ = true ∧
      isPrivate ⟨[x, y, z, w], [], Or.inr (Or.inl rfl)⟩ = false ↔ ∀ p ∈ closedRanges, ¬ p.Covers [x, y, z, w] := by
  have h255 : ¬ x = 255 := by
    rintro rfl
    exact hx' (by decide)
  have h16 : maskByte 4 16 = 16 := by decide
  have h224 : maskByte 4 224 = 224 := by decide
  have hfour : ∀ b, maskByte 4 b = b &&& 240 := fun b => rfl
  unfold closedRanges
  simp only [List.forall_mem_cons, ← Prefix.contains_iff, Prefix.contains, mask]
  simp [maskByte_zero, maskByte_eight, h16, h224, isGlobalUnicast, isPrivate, hx, h255]
  simp only [hfour]
  constructor
  · rintro ⟨⟨h127, hmulticast, h169⟩, h10, h172, h192⟩
    exact ⟨h10, h127, fun hx hy => h169.elim (fun h => h hx) (fun h => h hy), h172, h192, hmulticast⟩
  · rintro ⟨h10, h127, h169, h172, h192, hmulticast⟩
    exact ⟨⟨h127, hmulticast, not_and_or.1 fun h => h169 h.1 h.2⟩, h10, h172, h192⟩

/-! ### The first digit of an address -/

theorem isPrefixOf_singleton {c : Char} {s : Str} : [c].isPrefixOf s = true ↔ s.head? = some c := by
  cases s with
  | nil => exact ⟨fun h => (by cases h), fun h => (by cases h)⟩
  | cons d s => rw [List.isPrefixOf_cons_cons, List.isPrefixOf_nil_left, Bool.and_true, beq_iff_eq, List.head?_cons,
      Option.some.injEq, eq_comm]

/-- A number of four digits at most begins with 2 or 3 when it has four digits and its first byte is 20 to 3f, or less. -/
theorem leads_word {w : ℕ} (hw : w < 65536) :
    (Nat.toDigits 16 w).head? = some '2' ∨ (Nat.toDigits 16 w).head? = some '3' ↔
      0x2000 ≤ w ∧ w < 0x4000 ∨ ShortGroup w := by
  obtain ⟨d, hd, hhead, hrange⟩ := head_word hw
  have hdigit : ∀ d < 16, (Nat.digitChar d = '2' ↔ d = 2) ∧ (Nat.digitChar d = '3' ↔ d = 3) := by decide
  rw [hhead, Option.some.injEq, Option.some.injEq, (hdigit d hd).1, (hdigit d hd).2, ShortGroup]
  rcases hrange with ⟨rfl, rfl⟩ | ⟨hpos, k, hk, hlo, hhi⟩
  · decide
  · interval_cases k <;> omega

/-- The first byte of an address of 2000::/3, and what it is not. -/
theorem leadByte_table : ∀ a : UInt8, (a &&& 0xe0 = 0x20 ↔ 32 ≤ a.toNat ∧ a.toNat < 64) ∧
    (a &&& 0xe0 = 0x20 ∨ a.toNat < 4 → ¬ a = 0xff ∧ ¬ a = 0xfe ∧ ¬ a &&& 0xfe = 0xfc) := by
  refine Utf8.forall_byte ?_
  decide +kernel

/-- The text of an IPv6 address begins with 2 or 3 when its first group does. -/
theorem leads_iff {a b : UInt8} {rest : List UInt8} (h4 : to4 (a :: b :: rest) = none) :
    (['2'].isPrefixOf (ipString (a :: b :: rest)) || ['3'].isPrefixOf (ipString (a :: b :: rest))) = true ↔
      a &&& 0xe0 = 0x20 ∨ ShortGroup (a.toNat * 256 + b.toNat) := by
  have hw : a.toNat * 256 + b.toNat < 65536 := by
    have ha := a.toNat_lt
    have hb := b.toNat_lt
    omega
  have hbyte : a &&& 0xe0 = 0x20 ↔ 0x2000 ≤ a.toNat * 256 + b.toNat ∧ a.toNat * 256 + b.toNat < 0x4000 := by
    have hb := b.toNat_lt
    rw [(leadByte_table a).1]
    omega
  rw [Bool.or_eq_true, isPrefixOf_singleton, isPrefixOf_singleton, hbyte, ← leads_word hw]
  have hwords : words (a :: b :: rest) = (a.toNat * 256 + b.toNat) :: words rest := rfl
  rcases head_ipString h4 hwords with hhead | ⟨hzero, hhead⟩
  · rw [hhead]
  · rw [hhead, hzero]
    decide

/-! ### The addresses that pass -/

/-- The test of an address without a zone that is not IPv4-mapped. -/
theorem publicAddress_eq {a : Addr} (hz : a.zone = []) (hm : is4In6 a.ip = false) : publicAddress a = true ↔
    (isGlobalUnicast a = true ∧ isPrivate a = false) ∧ (∀ p ∈ specialUse, ¬ p.Covers a.ip) ∧
      (a.ip.length = 4 ∨ (['2'].isPrefixOf (addrText a) || ['3'].isPrefixOf (addrText a)) = true) := by
  have hunmap : a.unmap = a := dif_neg (by rw [hm]; exact Bool.false_ne_true)
  have hspecial : specialUse.any (fun p => a.zone = [] ∧ p.contains a.ip) = true ↔ ∃ p ∈ specialUse, p.Covers a.ip := by
    rw [List.any_eq_true]
    simp only [hz, true_and, decide_eq_true_eq, Prefix.contains_iff]
  unfold publicAddress
  dsimp only
  rw [hunmap]
  by_cases hopen : isGlobalUnicast a = true ∧ isPrivate a = false
  · rw [if_neg (by simp [hopen.1, hopen.2])]
    by_cases hs : specialUse.any (fun p => a.zone = [] ∧ p.contains a.ip) = true
    · rw [if_pos hs]
      obtain ⟨p, hp, hc⟩ := hspecial.1 hs
      exact ⟨fun h => (by cases h), fun h => absurd hc (h.2.1 p hp)⟩
    · rw [if_neg hs, Bool.or_assoc, Bool.or_eq_true, decide_eq_true_eq]
      have hall : ∀ p ∈ specialUse, ¬ p.Covers a.ip := fun p hp hc => hs (hspecial.2 ⟨p, hp, hc⟩)
      exact ⟨fun h => ⟨hopen, hall, h⟩, fun h => h.2.2⟩
  · rw [if_pos]
    · exact ⟨fun h => (by cases h), fun h => absurd h.1 hopen⟩
    · rw [not_and_or, Bool.not_eq_false] at hopen
      exact hopen

/-- Two of the special-use ranges, and what those of IPv6 fix. -/
theorem specialUse_table : ((⟨[0, 0, 0, 0], 8, by decide, by decide⟩ : Prefix) ∈ specialUse ∧
    (⟨[240, 0, 0, 0], 4, by decide, by decide⟩ : Prefix) ∈ specialUse) ∧
      ∀ p ∈ specialUse, p.addr.length = 4 ∨ 16 ≤ p.bits ∧ ¬ ShortGroup ((words p.addr).headD 0) := by
  decide +kernel

/-- **IPv4 addresses** pass the test as they should. -/
theorem publicAddress_v4 (x y z w : UInt8) : publicAddress ⟨[x, y, z, w], [], Or.inr (Or.inl rfl)⟩ = true ↔
    (∀ p ∈ closedRanges, ¬ p.Covers [x, y, z, w]) ∧ ∀ p ∈ specialUse, ¬ p.Covers [x, y, z, w] := by
  rw [publicAddress_eq rfl rfl]
  obtain ⟨⟨hzero, hhigh⟩, -⟩ := specialUse_table
  have hclosed : (∀ p ∈ specialUse, ¬ p.Covers [x, y, z, w]) → (isGlobalUnicast ⟨[x, y, z, w], [], Or.inr (Or.inl rfl)⟩ = true ∧
      isPrivate ⟨[x, y, z, w], [], Or.inr (Or.inl rfl)⟩ = false ↔ ∀ p ∈ closedRanges, ¬ p.Covers [x, y, z, w]) := by
    intro hs
    refine closed_iff x y z w ?_ ?_
    · rintro rfl
      refine hs _ hzero (Prefix.contains_iff.1 ?_)
      simp [Prefix.contains, mask, maskByte_zero, maskByte_eight]
    · intro hx
      refine hs _ hhigh (Prefix.contains_iff.1 ?_)
      have hmask : maskByte 4 x = maskByte 4 240 := hx.trans (by decide)
      simp [Prefix.contains, mask, maskByte_zero, hmask]
  constructor
  · rintro ⟨hopen, hs, -⟩
    exact ⟨(hclosed hs).1 hopen, hs⟩
  · rintro ⟨hranges, hs⟩
    exact ⟨(hclosed hs).2 hranges, hs, Or.inl rfl⟩

theorem globalRange_covers {a : UInt8} {rest : List UInt8} (h16 : (a :: rest).length = 16) :
    globalRange.Covers (a :: rest) ↔ a &&& 0xe0 = 0x20 := by
  have hlen : rest.length = 15 := by simpa using h16
  have hmask : mask 3 globalRange.addr = 0x20 :: List.replicate 15 0 := by decide
  have hthree : maskByte 3 a = a &&& 0xe0 := rfl
  rw [Prefix.covers_iff_mask]
  have hbits : globalRange.bits = 3 := rfl
  rw [hbits, hmask, mask, mask_zero, hlen, List.cons.injEq]
  exact ⟨fun h => hthree ▸ h.2.1, fun h => ⟨h16, hthree ▸ h, rfl⟩⟩

/-- The special-use ranges fix the first group of an IPv6 address, and it has four digits or begins with another one. -/
theorem special_short {a b : UInt8} {rest : List UInt8} (h16 : (a :: b :: rest).length = 16)
    (hs : ShortGroup (a.toNat * 256 + b.toNat)) : ∀ p ∈ specialUse, ¬ p.Covers (a :: b :: rest) := by
  intro p hp hc
  obtain ⟨hlen, hmask⟩ := Prefix.covers_iff_mask.1 hc
  obtain ⟨hbits, hgroup⟩ := (specialUse_table.2 p hp).resolve_left (by omega)
  cases haddr : p.addr with
  | nil =>
    rw [haddr, h16] at hlen
    cases hlen
  | cons x xs =>
    cases xs with
    | nil =>
      rw [haddr, h16] at hlen
      cases hlen
    | cons y ys =>
      rw [haddr, mask, mask, mask, mask, Nat.min_eq_right (by omega), Nat.min_eq_right (by omega), List.cons.injEq,
        List.cons.injEq, maskByte_eight, maskByte_eight, maskByte_eight, maskByte_eight] at hmask
      rw [haddr, ← hmask.1, ← hmask.2.1] at hgroup
      exact hgroup hs

/-- An IPv6 address that begins with 2 or 3 is global unicast and not private. -/
theorem open_of_lead {a b : UInt8} {rest : List UInt8} (h16 : (a :: b :: rest).length = 16)
    (hlead : a &&& 0xe0 = 0x20 ∨ ShortGroup (a.toNat * 256 + b.toNat)) :
    isGlobalUnicast ⟨a :: b :: rest, [], Or.inr (Or.inr h16)⟩ = true ∧
      isPrivate ⟨a :: b :: rest, [], Or.inr (Or.inr h16)⟩ = false := by
  have hsmall : a &&& 0xe0 = 0x20 ∨ a.toNat < 4 := by
    refine hlead.imp_right fun hs => ?_
    unfold ShortGroup at hs
    omega
  have hzero : ¬ (a = 0 ∧ b = 0) := by
    rintro ⟨rfl, rfl⟩
    revert hlead
    decide
  obtain ⟨hff, hfe, hfc⟩ := (leadByte_table a).2 hsmall
  match rest, h16 with
  | c :: d :: e :: rest, h16 =>
    refine ⟨?_, ?_⟩
    · unfold isGlobalUnicast
      simp only [decide_eq_true_eq]
      rintro (⟨-, h⟩ | h | h | ⟨h, -⟩)
      · exact hzero ⟨(List.cons.inj h).1, (List.cons.inj (List.cons.inj h).2).1⟩
      · exact hzero ⟨(List.cons.inj h).1, (List.cons.inj (List.cons.inj h).2).1⟩
      · exact hff h
      · exact hfe h
    · unfold isPrivate
      simpa using hfc

/-- **IPv6 addresses** pass the test also when their first group is short. -/
theorem publicAddress_v6 {a b : UInt8} {rest : List UInt8} (h16 : (a :: b :: rest).length = 16)
    (hm : is4In6 (a :: b :: rest) = false) : publicAddress ⟨a :: b :: rest, [], Or.inr (Or.inr h16)⟩ = true ↔
      globalRange.Covers (a :: b :: rest) ∧ (∀ p ∈ specialUse, ¬ p.Covers (a :: b :: rest)) ∨
        ShortGroup (a.toNat * 256 + b.toNat) := by
  have h4 : to4 (a :: b :: rest) = none := by
    rw [to4, if_neg (by rw [h16]; decide), if_neg]
    intro hmapped
    rw [is4In6_iff.2 hmapped] at hm
    cases hm
  rw [publicAddress_eq rfl hm, globalRange_covers h16]
  have htext : addrText ⟨a :: b :: rest, [], Or.inr (Or.inr h16)⟩ = ipString (a :: b :: rest) := by
    rw [addrText, if_neg (List.cons_ne_nil _ _), if_pos rfl, List.append_nil, addrString, if_neg (by rw [h16]; decide), h4]
  have hopen : a &&& 0xe0 = 0x20 ∨ ShortGroup (a.toNat * 256 + b.toNat) →
      isGlobalUnicast ⟨a :: b :: rest, [], Or.inr (Or.inr h16)⟩ = true ∧
        isPrivate ⟨a :: b :: rest, [], Or.inr (Or.inr h16)⟩ = false := fun hlead => open_of_lead h16 hlead
  rw [htext, leads_iff h4]
  constructor
  · rintro ⟨-, hs, hlen | hlead | hshort⟩
    · exact absurd (h16.symm.trans hlen) (by decide)
    · exact Or.inl ⟨hlead, hs⟩
    · exact Or.inr hshort
  · rintro (⟨hlead, hs⟩ | hshort)
    · exact ⟨hopen (Or.inl hlead), hs, Or.inr (Or.inl hlead)⟩
    · exact ⟨hopen (Or.inr hshort), special_short h16 hshort, Or.inr (Or.inr hshort)⟩

theorem public_v4 {ip : List UInt8} {x y z w : UInt8} (h : unmapAddr ip = [x, y, z, w]) :
    Public ip ↔ (∀ p ∈ closedRanges, ¬ p.Covers [x, y, z, w]) ∧ ∀ p ∈ specialUse, ¬ p.Covers [x, y, z, w] := by
  have hglobal : ¬ globalRange.Covers [x, y, z, w] := fun hc => absurd hc.1 (show ¬ 4 = 16 by decide)
  rw [Public, h]
  simp [hglobal]

theorem exists_four {ip : List UInt8} (h : ip.length = 4) : ∃ x y z w, ip = [x, y, z, w] := by
  match ip, h with
  | [x, y, z, w], _ => exact ⟨x, y, z, w, rfl⟩

/-- **The test** lets through the public addresses and the short ones. -/
theorem publicAddress_iff {ip : List UInt8} (h : ip.length = 4 ∨ ip.length = 16) :
    publicAddress ⟨ip, [], Or.inr h⟩ = true ↔ Public ip ∨ Short ip := by
  cases hm : is4In6 ip with
  | true =>
    obtain ⟨x, y, z, w, hv4⟩ := exists_four (length_drop_is4In6 hm)
    have hunmap : unmapAddr ip = [x, y, z, w] := by rw [unmapAddr, if_pos hm, hv4]
    have hshort : ¬ Short ip := by
      -- the first group is zero
      rintro ⟨-, g, hg, hs⟩
      rw [← List.take_append_drop 12 ip, (is4In6_iff.1 hm).2, hv4] at hg
      obtain rfl : 0 = g := Option.some.inj hg
      revert hs
      decide
    have hpublic : publicAddress ⟨ip, [], Or.inr h⟩ = publicAddress ⟨[x, y, z, w], [], Or.inr (Or.inl rfl)⟩ := by
      have ha : Addr.unmap ⟨ip, [], Or.inr h⟩ = ⟨[x, y, z, w], [], Or.inr (Or.inl rfl)⟩ := by
        rw [Addr.unmap, dif_pos hm]
        simp only [hv4]
      unfold publicAddress
      rw [ha]
      rfl
    rw [hpublic, publicAddress_v4, public_v4 hunmap]
    simp only [hshort, or_false]
  | false =>
    have hunmap : unmapAddr ip = ip := by rw [unmapAddr, hm, if_neg Bool.false_ne_true]
    rcases h with h4 | h16
    · obtain ⟨x, y, z, w, rfl⟩ := exists_four h4
      have hshort : ¬ Short [x, y, z, w] := fun hs => absurd hs.1 (show ¬ 4 = 16 by decide)
      rw [publicAddress_v4, public_v4 hunmap]
      simp only [hshort, or_false]
    · match ip, h16 with
      | a :: b :: rest, h16 =>
        rw [publicAddress_v6 h16 hm, Public, hunmap, Short]
        simp [h16, words]

theorem short_not_public {ip : List UInt8} (h : Short ip) : ¬ Public ip := by
  obtain ⟨h16, g, hg, hs⟩ := h
  match ip, h16 with
  | a :: b :: rest, h16 =>
    obtain rfl : a.toNat * 256 + b.toNat = g := Option.some.inj hg
    have hm : is4In6 (a :: b :: rest) = false := by
      rw [← Bool.not_eq_true, is4In6_iff]
      rintro ⟨-, hmapped⟩
      obtain ⟨ha, hrest⟩ := List.cons.inj hmapped
      obtain ⟨hb, -⟩ := List.cons.inj hrest
      rw [ha, hb] at hs
      revert hs
      decide
    have hlead : ¬ a &&& 0xe0 = 0x20 := by
      intro ha
      have hle := ((leadByte_table a).1.1 ha).1
      unfold ShortGroup at hs
      omega
    rw [Public, unmapAddr, hm, if_neg Bool.false_ne_true, globalRange_covers h16]
    rintro ⟨⟨h4, -⟩ | h, -⟩
    · rw [h16] at h4
      cases h4
    · exact hlead h

theorem public_length {ip : List UInt8} (h : Public ip) : ip.length = 4 ∨ ip.length = 16 := by
  cases hm : is4In6 ip with
  | true => exact Or.inr (is4In6_iff.1 hm).1
  | false =>
    have hunmap : unmapAddr ip = ip := by rw [unmapAddr, hm, if_neg Bool.false_ne_true]
    rw [Public, hunmap] at h
    exact h.1.imp (fun h => h.1) (fun h => h.1)

/-! ### What is dialled -/

/-- The check of an address the resolver returns. -/
theorem passes_iff {ip : List UInt8} : (addrFromSlice ip).any publicAddress = true ↔ Public ip ∨ Short ip := by
  unfold addrFromSlice
  by_cases h : ip.length = 4 ∨ ip.length = 16
  · rw [dif_pos h, Option.any_some, publicAddress_iff h]
  · rw [dif_neg h]
    refine ⟨fun h' => (by cases h'), fun h' => absurd ?_ h⟩
    exact h'.elim public_length (fun hs => Or.inr hs.1)

theorem dialLoop_ne_nil {dial : Str → Option Str} {port : Str} {ips : List (List UInt8)} {last : Except Str Unit}
    (h : ips ≠ []) : (dialLoop dial port ips last).1 ≠ [] := by
  cases ips with
  | nil => exact absurd rfl h
  | cons ip ips =>
    unfold dialLoop
    dsimp only
    split
    · exact List.cons_ne_nil _ _
    · exact List.cons_ne_nil _ _

theorem mem_dialLoop {dial : Str → Option Str} {port address : Str} {ips : List (List UInt8)} :
    ∀ {last : Except Str Unit}, address ∈ (dialLoop dial port ips last).1 →
      ∃ ip ∈ ips, address = joinHostPort (ipString ip) port := by
  induction ips with
  | nil =>
    intro last h
    cases h
  | cons ip ips ih =>
    intro last h
    unfold dialLoop at h
    dsimp only at h
    split at h
    · exact ⟨ip, List.mem_cons_self, List.mem_singleton.1 h⟩
    · rcases List.mem_cons.1 h with h | h
      · exact ⟨ip, List.mem_cons_self, h⟩
      · obtain ⟨ip', hip, h⟩ := ih h
        exact ⟨ip', List.mem_cons_of_mem _ hip, h⟩

/-- A call that dials: the address can be split, and the resolver returns one to sixteen addresses that all pass. -/
def Dials (a : Ask) (ips : List (List UInt8)) : Prop :=
  (∃ host, splitHostPort a.address = .ok host) ∧ a.ips = .ok ips ∧ 0 < ips.length ∧ ips.length ≤ 16 ∧
    ∀ ip ∈ ips, Public ip ∨ Short ip

/-- **One call** of `DialContext`. -/
theorem dialContext_cases (a : Ask) : ((dialContext a).1 = [] ∧ ∀ ips, ¬ Dials a ips) ∨
    ∃ ips, Dials a ips ∧ (dialContext a).1 ≠ [] ∧
      ∀ address ∈ (dialContext a).1, ∃ ip ∈ ips, ∃ port, address = joinHostPort (ipString ip) port := by
  unfold dialContext Dials
  cases splitHostPort a.address with
  | error e => exact Or.inl ⟨rfl, fun ips h => by obtain ⟨⟨host, h⟩, -⟩ := h; cases h⟩
  | ok host =>
    dsimp only
    cases a.ips with
    | error e => exact Or.inl ⟨rfl, fun ips h => by cases h.2.1⟩
    | ok ips =>
      dsimp only
      split
      · rename_i hcount
        refine Or.inl ⟨rfl, fun ips' h => ?_⟩
        obtain ⟨-, hips, hpos, hle, -⟩ := h
        cases hips
        omega
      rename_i hcount
      split
      · rename_i hany
        refine Or.inl ⟨rfl, fun ips' h => ?_⟩
        obtain ⟨-, hips, -, -, hall⟩ := h
        cases hips
        obtain ⟨ip, hip, hfail⟩ := List.any_eq_true.1 hany
        rw [decide_eq_true_eq, passes_iff] at hfail
        exact hfail (hall ip hip)
      · rename_i hany
        have hpos : 0 < ips.length := by omega
        refine Or.inr ⟨ips, ⟨⟨host, rfl⟩, rfl, hpos, by omega, fun ip hip => ?_⟩, ?_, fun address h => ?_⟩
        · by_contra hfail
          rw [← passes_iff] at hfail
          exact hany (List.any_eq_true.2 ⟨ip, hip, decide_eq_true hfail⟩)
        · exact dialLoop_ne_nil (List.ne_nil_of_length_pos hpos)
        · obtain ⟨ip, hip, h⟩ := mem_dialLoop h
          exact ⟨ip, hip, _, h⟩

/-- What is to hold of a call: it dials public addresses, and nothing when one of the resolver's is not public. -/
structure Reaches (a : Ask) (targets : List Str) : Prop where
  dialled : ∀ address ∈ targets, ∃ ip, Public ip ∧ ∃ port, address = joinHostPort (ipString ip) port
  refused : ∀ ips, a.ips = .ok ips → (∃ ip ∈ ips, ¬ Public ip) → targets = []

/-- The call dials, and one of its addresses passes although it is short. -/
def Slips (a : Ask) : Prop := ∃ ips, Dials a ips ∧ ∃ ip ∈ ips, Short ip

theorem reaches_iff (a : Ask) : Reaches a (dialContext a).1 ↔ ¬ Slips a := by
  rcases dialContext_cases a with ⟨hnil, hno⟩ | ⟨ips, hd, hne, hfrom⟩
  · rw [hnil]
    refine ⟨fun _ => ?_, fun _ => ⟨by simp, fun _ _ _ => rfl⟩⟩
    rintro ⟨ips, hd, -⟩
    exact hno ips hd
  · constructor
    · rintro h ⟨ips', hd', ip, hip, hshort⟩
      exact hne (h.refused ips' hd'.2.1 ⟨ip, hip, short_not_public hshort⟩)
    · intro hno
      have hall : ∀ ip ∈ ips, Public ip := fun ip hip =>
        (hd.2.2.2.2 ip hip).resolve_right fun hshort => hno ⟨ips, hd, ip, hip, hshort⟩
      refine ⟨fun address h => ?_, fun ips' hips' h => ?_⟩
      · obtain ⟨ip, hip, hport⟩ := hfrom address h
        exact ⟨ip, hall ip hip, hport⟩
      · obtain ⟨ip, hip, hnot⟩ := h
        cases hd.2.1.symm.trans hips'
        exact absurd (hall ip hip) hnot

/-- **Fetching reaches public addresses only** exactly when no call dials a set of addresses with a short one among them. -/
theorem fetchHosts_public_iff (parse : Str → Option URL) (raw : Str) (asks : List Ask) (response : Except Str Response) :
    (∀ t ∈ (fetchHosts parse raw asks response).1, Reaches t.1 t.2) ↔
      (∃ e, validateSourceURL parse raw = .error e) ∨ ∀ a ∈ asks, ¬ Slips a := by
  unfold fetchHosts
  cases validateSourceURL parse raw with
  | error e => simp
  | ok u =>
    simp only [List.forall_mem_map, reaches_iff]
    simp

namespace Two

/-- What `url.Parse` makes of https://lists.example/hosts. -/
def url : URL := ⟨"https".toList, false, "lists.example".toList, [], [], []⟩

/-- The name resolves to 2::1, and there something answers. -/
def ask : Ask := ⟨"lists.example:443".toList, .ok [[0, 2] ++ List.replicate 13 0 ++ [1]], fun _ => none⟩

end Two

open Two in
/-- An address outside 2000::/3 is dialled. -/
theorem fetchHosts_two :
    (fetchHosts (fun _ => some url) "https://lists.example/hosts".toList [ask] (.error [])).1 =
      [(ask, ["[2::1]:443".toList])] ∧
    ¬ ∀ t ∈ (fetchHosts (fun _ => some url) "https://lists.example/hosts".toList [ask] (.error [])).1,
      Reaches t.1 t.2 := by
  have hfetch : (fetchHosts (fun _ => some url) "https://lists.example/hosts".toList [ask] (.error [])).1 =
      [(ask, ["[2::1]:443".toList])] := by
    have hvalid : validateSourceURL (fun _ => some url) "https://lists.example/hosts".toList = .ok () := by decide +kernel
    have hdial : (dialContext ask).1 = ["[2::1]:443".toList] := by decide +kernel
    unfold fetchHosts
    rw [hvalid]
    rw [List.map_singleton, hdial]
  refine ⟨hfetch, fun h => ?_⟩
  rw [hfetch] at h
  have hrefused := (h _ (List.mem_singleton_self _)).refused _ rfl ⟨_, List.mem_singleton_self _, short_not_public ?_⟩
  · cases hrefused
  · exact ⟨rfl, 2, rfl, by decide⟩

end Velora.Filtering
