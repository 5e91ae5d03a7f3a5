import Velora.Filtering.Fetch

/-!
# Where webhooks are sent

The checks of `internal/webhooks/webhooks.go` on a destination: `ValidateURL` when a hook is saved, and `DialContext` of
`send` when it is used, which resolves the host, checks every address and connects to no other. What is dialled is known
exactly (`dialContext_dials`).
-/

namespace Velora.Webhooks

open Velora.Lib Velora.Lib.Text Velora.Lib.Ip
open Velora.Zones (byteLen)
open Velora.Clients (Addr)
open Velora.Filtering (URL Ask parseZoned addrText addrFromSlice joinHostPort portOf dialLoop isPrivate exists_four)

inductive Err where
  | invalid (detail : Str)
  | notFound
  | exists (name : Option Str)
  | storage (text : String)
  deriving DecidableEq

/-! ### Addresses -/

/-- `IsUnspecified`. -/
def isUnspecified (a : Addr) : Bool := a.ip = [0, 0, 0, 0] ∨ a.zone = [] ∧ a.ip = List.replicate 16 0

/-- `IsMulticast`. -/
def isMulticast (a : Addr) : Bool :=
  match a.ip with
  | [x, _, _, _] => x &&& 0xf0 = 0xe0
  | x :: _ => x = 0xff
  | [] => false

/-- `IsLinkLocalUnicast`. -/
def isLinkLocalUnicast (a : Addr) : Bool :=
  match a.ip with
  | [x, y, _, _] => x = 169 ∧ y = 254
  | x :: y :: _ => x = 0xfe ∧ y &&& 0xc0 = 0x80
  | _ => false

/-- `IsLinkLocalMulticast`. -/
def isLinkLocalMulticast (a : Addr) : Bool :=
  match a.ip with
  | [x, y, z, _] => x = 224 ∧ y = 0 ∧ z = 0
  | x :: y :: _ => x = 0xff ∧ y &&& 0x0f = 0x02
  | _ => false

/-- `IsInterfaceLocalMulticast`. -/
def isInterfaceLocalMulticast (a : Addr) : Bool :=
  match a.ip with
  | [_, _, _, _] => false
  | x :: y :: _ => x = 0xff ∧ y &&& 0x0f = 0x01
  | _ => false

/-- `IsLoopback`. -/
def isLoopback (a : Addr) : Bool :=
  match a.ip with
  | [x, _, _, _] => x = 127
  | ip => ip = List.replicate 15 0 ++ [1]

/-- 100.64.0.0/10, the addresses shared by the customers of a provider. -/
def sharedRange : Prefix := ⟨[100, 64, 0, 0], 10, by decide, by decide⟩

/-- `checkAddress`; no network contains an address with a zone. -/
def checkAddress (addr : Addr) (allowPrivate : Bool) : Except Err Unit :=
  if addr.ip = [] ∨ isUnspecified addr ∨ isMulticast addr ∨ isLinkLocalUnicast addr ∨ isLinkLocalMulticast addr ∨
      isInterfaceLocalMulticast addr then
    .error (.invalid ("destination address ".toList ++ addrText addr ++ " is not allowed".toList))
  else if (isPrivate addr ∨ isLoopback addr ∨ addr.zone = [] ∧ sharedRange.contains addr.ip) ∧ !allowPrivate then
    .error (.invalid (addrText addr ++ " is a private or loopback address; enable allow_private to use it".toList))
  else .ok ()

/-- `ValidateURL`, with `url.Parse` of the library and the folding of `strings.EqualFold`. -/
def validateURL (parse : Str → Option URL) (fold : Char → Char) (raw : Str) (allowPrivate : Bool) : Except Err Unit :=
  let invalid := Except.error (Err.invalid "use an http:// or https:// URL without credentials".toList)
  match parse raw with
  | none => invalid
  | some u =>
    if byteLen raw > 2048 ∨ u.hasUser ∨ u.hostname = [] ∨ u.rootless ≠ [] ∨ u.fragment ≠ [] ∨
        (u.scheme ≠ "https".toList ∧ u.scheme ≠ "http".toList) then invalid
    else
      match parseZoned u.hostname with
      | some ip => checkAddress ip.unmap allowPrivate
      | none =>
        if (trimDot u.hostname).map fold = "localhost".toList.map fold ∧ !allowPrivate then
          .error (.invalid "private and loopback destinations require allow_private".toList)
        else .ok ()

/-! ### Dialling -/

/-- The loop of `DialContext` that checks the addresses. -/
def checkAll (allowPrivate : Bool) : List (List UInt8) → Except Str Unit
  | [] => .ok ()
  | ip :: ips =>
    match addrFromSlice ip with
    | none => .error "destination address is invalid".toList
    | some addr =>
      match checkAddress addr.unmap allowPrivate with
      | .error (.invalid detail) => .error detail
      | .error _ => .error []
      | .ok () => checkAll allowPrivate ips

/-- `DialContext` of `send`: the addresses that are dialled, and the result. -/
def dialContext (allowPrivate : Bool) (a : Ask) : List Str × Except Str Unit :=
  match splitHostPort a.address with
  | .error e => ([], .error e.toList)
  | .ok _ =>
    match a.ips with
    | .error _ => ([], .error "destination could not be resolved".toList)
    | .ok [] => ([], .error "destination could not be resolved".toList)
    | .ok ips =>
      match checkAll allowPrivate (ips.take 16) with
      | .error e => ([], .error e)
      | .ok () =>
        match dialLoop a.dial (portOf a.address) (ips.take 16) (.ok ()) with
        | (dialled, .ok ()) => (dialled, .ok ())
        | (dialled, .error last) => (dialled, .error ("connection failed: ".toList ++ last))

/-! ### What is allowed -/

/-- A range of IPv4. -/
def range (a b c d : UInt8) (bits : Fin 33) : Prefix := ⟨[a, b, c, d], bits, Or.inl rfl, Nat.le_of_lt_succ bits.isLt⟩

/-- The ranges no hook may use: the unspecified, the multicast and the link-local addresses. -/
def closedRanges : List Prefix :=
  [range 0 0 0 0 32, ⟨List.replicate 16 0, 128, by decide, by decide⟩,
    range 224 0 0 0 4, ⟨0xff :: List.replicate 15 0, 8, by decide, by decide⟩,
    range 169 254 0 0 16, ⟨0xfe :: 0x80 :: List.replicate 14 0, 10, by decide, by decide⟩]

/-- The ranges a hook may use when the administrator opted in: the private, the loopback and the shared addresses. -/
def privateRanges : List Prefix :=
  [range 10 0 0 0 8, range 172 16 0 0 12, range 192 168 0 0 16, ⟨0xfc :: List.replicate 15 0, 7, by decide, by decide⟩,
    range 127 0 0 0 8, ⟨List.replicate 15 0 ++ [1], 128, by decide, by decide⟩, sharedRange]

/-- A destination a hook may be sent to. -/
def Allowed (allowPrivate : Bool) (ip : List UInt8) : Prop :=
  (ip.length = 4 ∨ ip.length = 16) ∧ (∀ p ∈ closedRanges, ¬ p.Covers (unmapAddr ip)) ∧
    (allowPrivate = true ∨ ∀ p ∈ privateRanges, ¬ p.Covers (unmapAddr ip))

instance (p : Prefix) (ip : List UInt8) : Decidable (p.Covers ip) := decidable_of_iff _ Prefix.contains_iff

instance (allowPrivate : Bool) (ip : List UInt8) : Decidable (Allowed allowPrivate ip) :=
  inferInstanceAs (Decidable (_ ∧ _ ∧ _))

/-- The address fails one of the tests that no hook may fail. -/
def Closed (a : Addr) : Prop :=
  a.ip = [] ∨ isUnspecified a ∨ isMulticast a ∨ isLinkLocalUnicast a ∨ isLinkLocalMulticast a ∨ isInterfaceLocalMulticast a

/-- The address is one of those a hook needs to opt in for. -/
def Private (a : Addr) : Prop := isPrivate a ∨ isLoopback a ∨ a.zone = [] ∧ sharedRange.contains a.ip

theorem checkAddress_ok {a : Addr} {allowPrivate : Bool} :
    checkAddress a allowPrivate = .ok () ↔ ¬ Closed a ∧ (allowPrivate = true ∨ ¬ Private a) := by
  unfold checkAddress
  split
  · rename_i hclosed
    exact ⟨fun h => (by cases h), fun h => absurd hclosed h.1⟩
  · rename_i hopen
    split
    · rename_i hprivate
      refine ⟨fun h => (by cases h), fun h => ?_⟩
      rcases h.2 with hallow | hno
      · rw [hallow] at hprivate
        exact absurd hprivate.2 (by decide)
      · exact absurd hprivate.1 hno
    · rename_i hprivate
      refine ⟨fun _ => ⟨hopen, ?_⟩, fun _ => rfl⟩
      by_contra hno
      rw [not_or, not_not, Bool.not_eq_true] at hno
      exact hprivate ⟨hno.2, by rw [hno.1]; rfl⟩

section Four

variable (x y z w : UInt8)

/-- An IPv4 address. -/
def four : Addr := ⟨[x, y, z, w], [], Or.inr (Or.inl rfl)⟩

theorem maskByte_four (b : UInt8) : maskByte 4 b = b &&& 240 := rfl

theorem closed_v4 : ¬ Closed (four x y z w) ↔ ∀ p ∈ closedRanges, ¬ p.Covers [x, y, z, w] := by
  have h224 : maskByte 4 224 = 224 := by decide
  unfold closedRanges Closed
  simp only [List.forall_mem_cons, ← Prefix.contains_iff, Prefix.contains, range, Fin.coe_ofNat_eq_mod, Nat.reduceMod, mask]
  simp [maskByte_zero, maskByte_eight, maskByte_four x, h224, four, isUnspecified, isMulticast, isLinkLocalUnicast,
    isLinkLocalMulticast, isInterfaceLocalMulticast]
  -- a link-local multicast address is a multicast address
  intro hzero hmulticast hlink hx
  rw [hx] at hmulticast
  exact absurd rfl hmulticast

theorem private_v4 : ¬ Private (four x y z w) ↔ ∀ p ∈ privateRanges, ¬ p.Covers [x, y, z, w] := by
  have h16 : maskByte 4 16 = 16 := by decide
  unfold privateRanges Private
  simp only [List.forall_mem_cons, ← Prefix.contains_iff, Prefix.contains, range, Fin.coe_ofNat_eq_mod, Nat.reduceMod, mask]
  simp [maskByte_zero, maskByte_eight, maskByte_four, h16, four, isPrivate, isLoopback, sharedRange, mask, and_assoc]

end Four

section Sixteen

variable {a b : UInt8} {rest : List UInt8}

/-- A range of IPv4 has no IPv6 address. -/
theorem covers_four {p : Prefix} (h16 : (a :: b :: rest).length = 16) (hp : p.addr.length = 4) : ¬ p.Covers (a :: b :: rest) :=
  fun hc => absurd (h16.symm.trans (hc.1.trans hp)) (by decide)

theorem covers_range (h16 : (a :: b :: rest).length = 16) (x y z w : UInt8) (bits : Fin 33) :
    ¬ (range x y z w bits).Covers (a :: b :: rest) := covers_four h16 rfl

/-- A range that fixes at most two bytes. -/
theorem covers_lead {p : Prefix} {x y : UInt8} (h16 : (a :: b :: rest).length = 16)
    (hp : p.addr = x :: y :: List.replicate 14 0) (hn : p.bits ≤ 16) : p.Covers (a :: b :: rest) ↔
      maskByte (min p.bits 8) a = maskByte (min p.bits 8) x ∧ maskByte (p.bits - 8) b = maskByte (p.bits - 8) y := by
  have hrest : rest.length = 14 := by simpa using h16
  have hzero : p.bits - 8 - 8 = 0 := by omega
  have hmin : min (p.bits - 8) 8 = p.bits - 8 := by omega
  rw [Prefix.covers_iff_mask, hp, mask, mask, mask, mask, hzero, mask_zero, mask_zero, hrest, List.cons.injEq, List.cons.injEq,
    hmin]
  simp [hrest]

/-- A range of one address. -/
theorem covers_one {p : Prefix} (h16 : (a :: b :: rest).length = 16) (hp : p.addr.length = 16) (hn : p.bits = 128) :
    p.Covers (a :: b :: rest) ↔ a :: b :: rest = p.addr := by
  rw [Prefix.covers_iff_mask, hn, mask_all (by rw [h16]), mask_all (by rw [hp])]
  exact ⟨fun h => h.2, fun h => ⟨by rw [h], h⟩⟩

theorem closed_sixteen (h16 : (a :: b :: rest).length = 16) : Closed ⟨a :: b :: rest, [], Or.inr (Or.inr h16)⟩ ↔
    a :: b :: rest = List.replicate 16 0 ∨ a = 0xff ∨ a = 0xfe ∧ b &&& 0xc0 = 0x80 := by
  match rest, h16 with
  | c :: d :: e :: rest, h16 =>
    simp only [Closed, isUnspecified, isMulticast, isLinkLocalUnicast, isLinkLocalMulticast, isInterfaceLocalMulticast,
      decide_eq_true_eq]
    constructor
    · rintro (h | (h | ⟨-, h⟩) | h | h | ⟨h, -⟩ | ⟨h, -⟩)
      · cases h
      · simp at h
      · exact Or.inl h
      · exact Or.inr (Or.inl h)
      · exact Or.inr (Or.inr h)
      · exact Or.inr (Or.inl h)
      · exact Or.inr (Or.inl h)
    · rintro (h | h | h)
      · exact Or.inr (Or.inl (Or.inr ⟨trivial, h⟩))
      · exact Or.inr (Or.inr (Or.inl h))
      · exact Or.inr (Or.inr (Or.inr (Or.inl h)))

theorem private_sixteen (h16 : (a :: b :: rest).length = 16) : Private ⟨a :: b :: rest, [], Or.inr (Or.inr h16)⟩ ↔
    a &&& 0xfe = 0xfc ∨ a :: b :: rest = List.replicate 15 0 ++ [1] := by
  match rest, h16 with
  | c :: d :: e :: rest, h16 =>
    have hshared : ¬ sharedRange.contains (a :: b :: c :: d :: e :: rest) = true := by
      rw [Prefix.contains_iff]
      exact covers_four h16 rfl
    simp [Private, isPrivate, isLoopback, hshared]

theorem closed_v6 (h16 : (a :: b :: rest).length = 16) : ¬ Closed ⟨a :: b :: rest, [], Or.inr (Or.inr h16)⟩ ↔
    ∀ p ∈ closedRanges, ¬ p.Covers (a :: b :: rest) := by
  have hunspecified := covers_one (p := ⟨List.replicate 16 0, 128, by decide, by decide⟩) h16 rfl rfl
  have hmulticast := covers_lead (p := ⟨0xff :: List.replicate 15 0, 8, by decide, by decide⟩) h16 rfl (by decide)
  have hlink := covers_lead (p := ⟨0xfe :: 0x80 :: List.replicate 14 0, 10, by decide, by decide⟩) h16 rfl (by decide)
  have h128 : maskByte 2 128 = 128 := by decide
  have htwo : maskByte 2 b = b &&& 192 := rfl
  rw [closed_sixteen h16]
  unfold closedRanges
  simp only [List.forall_mem_cons, hunspecified, hmulticast, hlink, covers_range h16]
  simp [maskByte_zero, maskByte_eight, h128, htwo]

theorem private_v6 (h16 : (a :: b :: rest).length = 16) : ¬ Private ⟨a :: b :: rest, [], Or.inr (Or.inr h16)⟩ ↔
    ∀ p ∈ privateRanges, ¬ p.Covers (a :: b :: rest) := by
  have hloopback := covers_one (p := ⟨List.replicate 15 0 ++ [1], 128, by decide, by decide⟩) h16 rfl rfl
  have hlocal := covers_lead (p := ⟨0xfc :: List.replicate 15 0, 7, by decide, by decide⟩) h16 rfl (by decide)
  have h252 : maskByte 7 252 = 252 := by decide
  have hseven : maskByte 7 a = a &&& 254 := rfl
  rw [private_sixteen h16]
  unfold privateRanges
  simp only [List.forall_mem_cons, hloopback, hlocal, covers_range h16, covers_four h16 (p := sharedRange) rfl]
  simp [maskByte_zero, h252, hseven]

end Sixteen

/-- **The check of an address** a resolver returns. -/
theorem checkAddress_iff {ip : List UInt8} (h : ip.length = 4 ∨ ip.length = 16) (allowPrivate : Bool) :
    checkAddress (Addr.unmap ⟨ip, [], Or.inr h⟩) allowPrivate = .ok () ↔ Allowed allowPrivate ip := by
  have hsize : Allowed allowPrivate ip ↔ (∀ p ∈ closedRanges, ¬ p.Covers (unmapAddr ip)) ∧
      (allowPrivate = true ∨ ∀ p ∈ privateRanges, ¬ p.Covers (unmapAddr ip)) := ⟨fun ha => ha.2, fun ha => ⟨h, ha⟩⟩
  rw [checkAddress_ok, hsize]
  cases hm : is4In6 ip with
  | true =>
    obtain ⟨x, y, z, w, hv4⟩ := exists_four (length_drop_is4In6 hm)
    have hunmap : unmapAddr ip = [x, y, z, w] := by rw [unmapAddr, if_pos hm, hv4]
    have ha : Addr.unmap ⟨ip, [], Or.inr h⟩ = four x y z w := by
      rw [Addr.unmap, dif_pos hm]
      simp only [hv4, four]
    rw [ha, hunmap, closed_v4, private_v4]
  | false =>
    have hunmap : unmapAddr ip = ip := by rw [unmapAddr, hm, if_neg Bool.false_ne_true]
    have ha : Addr.unmap ⟨ip, [], Or.inr h⟩ = ⟨ip, [], Or.inr h⟩ := dif_neg (by rw [hm]; exact Bool.false_ne_true)
    rw [ha, hunmap]
    rcases h with h4 | h16
    · obtain ⟨x, y, z, w, rfl⟩ := exists_four h4
      exact and_congr (closed_v4 x y z w) (or_congr_right (private_v4 x y z w))
    · obtain _ | ⟨a, _ | ⟨b, rest⟩⟩ := ip
      · cases h16
      · cases h16
      · exact and_congr (closed_v6 h16) (or_congr_right (private_v6 h16))

/-- The loop over the addresses passes when all of them are allowed. -/
theorem checkAll_ok {allowPrivate : Bool} {ips : List (List UInt8)} :
    checkAll allowPrivate ips = .ok () ↔ ∀ ip ∈ ips, Allowed allowPrivate ip := by
  induction ips with
  | nil => simp [checkAll]
  | cons ip ips ih =>
    rw [List.forall_mem_cons, ← ih, checkAll, addrFromSlice]
    by_cases h : ip.length = 4 ∨ ip.length = 16
    · rw [dif_pos h, ← checkAddress_iff h]
      dsimp only
      cases hcheck : checkAddress (Addr.unmap ⟨ip, [], Or.inr h⟩) allowPrivate with
      | ok u => simp
      | error e => cases e <;> simp
    · rw [dif_neg h]
      refine ⟨fun h' => (by cases h'), fun h' => absurd h'.1.1 h⟩

/-! ### What is dialled -/

/-- The texts of the addresses that a call may dial. -/
def targets (a : Ask) (ips : List (List UInt8)) : List Str :=
  (ips.take 16).map (fun ip => joinHostPort (ipString ip) (portOf a.address))

/-- The dialler is called up to its first success. -/
theorem dialLoop_dials (dial : Str → Option Str) (port : Str) (ips : List (List UInt8)) (last : Except Str Unit) :
    (dialLoop dial port ips last).1 = (ips.map (fun ip => joinHostPort (ipString ip) port)).take
      ((ips.map (fun ip => joinHostPort (ipString ip) port)).findIdx (fun t => dial t = none) + 1) := by
  induction ips generalizing last with
  | nil => rfl
  | cons ip ips ih =>
    rw [dialLoop, List.map_cons, List.findIdx_cons]
    dsimp only
    cases hdial : dial (joinHostPort (ipString ip) port) with
    | none => simp
    | some e => simp [ih]

/-- What a call may reach: when the address can be split and each of the first sixteen addresses of the host is allowed, these
in their order up to the first that answers, and otherwise nothing. -/
def reach (allowPrivate : Bool) (a : Ask) : List Str :=
  match a.ips with
  | .error _ => []
  | .ok ips =>
    if (splitHostPort a.address).isOk ∧ ∀ ip ∈ ips.take 16, Allowed allowPrivate ip then
      (targets a ips).take ((targets a ips).findIdx (fun t => a.dial t = none) + 1)
    else []

/-- **One call of `DialContext`** dials what it may reach and nothing else. -/
theorem dialContext_dials (allowPrivate : Bool) (a : Ask) : (dialContext allowPrivate a).1 = reach allowPrivate a := by
  unfold dialContext reach
  cases hsplit : splitHostPort a.address with
  | error e =>
    have hno : ¬ (Except.error e : Except String Str).isOk = true := fun h => (by cases h)
    cases a.ips with
    | error e => rfl
    | ok ips => exact (if_neg fun h => hno h.1).symm
  | ok host =>
    cases hips : a.ips with
    | error e => rfl
    | ok ips =>
      cases ips with
      | nil => simp [targets]
      | cons ip rest =>
        dsimp only
        cases hcheck : checkAll allowPrivate ((ip :: rest).take 16) with
        | error e =>
          have hno : ¬ ∀ x ∈ (ip :: rest).take 16, Allowed allowPrivate x := by
            rw [← checkAll_ok, hcheck]
            exact fun h => (by cases h)
          rw [if_neg fun h => hno h.2]
        | ok u =>
          rw [if_pos ⟨rfl, checkAll_ok.1 hcheck⟩, targets, ← dialLoop_dials a.dial (portOf a.address) _ (.ok ())]
          dsimp only
          split <;> rename_i hdial <;> rw [hdial]

/-- Nothing is dialled but an allowed address of the host. -/
theorem mem_dialContext {allowPrivate : Bool} {a : Ask} {t : Str} (h : t ∈ (dialContext allowPrivate a).1) :
    ∃ ips, a.ips = .ok ips ∧ ∃ ip ∈ ips, Allowed allowPrivate ip ∧ t = joinHostPort (ipString ip) (portOf a.address) := by
  rw [dialContext_dials, reach] at h
  cases hips : a.ips with
  | error e =>
    rw [hips] at h
    cases h
  | ok ips =>
    rw [hips] at h
    dsimp only at h
    split at h
    · rename_i hall
      obtain ⟨ip, hip, rfl⟩ := List.mem_map.1 (List.mem_of_mem_take h)
      exact ⟨ips, rfl, ip, List.mem_of_mem_take hip, hall.2 ip hip, rfl⟩
    · cases h

/-- The metadata service of a cloud is out of reach, also for a hook that may use private addresses. -/
example : reach true ⟨"metadata.example:80".toList, .ok [[10, 0, 0, 1], [169, 254, 169, 254]], fun _ => none⟩ = [] := by
  decide +kernel

end Velora.Webhooks
