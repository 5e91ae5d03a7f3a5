import Velora.Lib.Ip

/-!
# Networks in text

`netip.Prefix`: an address with the number of its leading bits that a network has in common. `Prefix.Covers` says it of
the bits, `mask` clears the others, and a masked prefix is found from an address and a number of bits alone
(`covers_iff_addrPrefix`).
-/

namespace Velora.Lib.Ip

open Velora.Lib.Text

/-! ### Bits -/

/-- The bits of a byte, the highest first. -/
def byteBits (b : UInt8) : List Bool := (List.range 8).map (fun i => b.toNat.testBit (7 - i))

/-- The bits of an address. -/
def addrBits (ip : List UInt8) : List Bool := ip.flatMap byteBits

/-- The first bits of a byte, up to eight of them. -/
def maskByte (n : ℕ) (b : UInt8) : UInt8 := b &&& UInt8.ofNat (256 - 2 ^ (8 - n))

/-- The first bits of an address; the others are cleared. -/
def mask : ℕ → List UInt8 → List UInt8
  | _, [] => []
  | n, b :: ip => maskByte (min n 8) b :: mask (n - 8) ip

theorem length_byteBits (b : UInt8) : (byteBits b).length = 8 := by simp [byteBits]

theorem getElem_byteBits (b : UInt8) {i : ℕ} (hi : i < (byteBits b).length) : (byteBits b)[i] = b.toNat.testBit (7 - i) := by
  simp [byteBits]

theorem byteBits_maskByte {n : ℕ} (hn : n ≤ 8) (b : UInt8) :
    byteBits (maskByte n b) = (byteBits b).take n ++ List.replicate (8 - n) false := by
  -- the bits of the mask itself
  have hmask : ∀ n : Fin 9, ∀ i : Fin 8,
      (UInt8.ofNat (256 - 2 ^ (8 - n.val))).toNat.testBit (7 - i.val) = decide (i.val < n.val) := by
    decide +kernel
  refine List.ext_getElem (by simp [length_byteBits, hn]) fun i hi hi' => ?_
  have hi8 : i < 8 := (length_byteBits _) ▸ hi
  rw [getElem_byteBits, maskByte, UInt8.toNat_and, Nat.testBit_and, hmask ⟨n, by omega⟩ ⟨i, hi8⟩]
  by_cases hin : i < n
  · rw [List.getElem_append_left (by simp [length_byteBits]; omega), List.getElem_take, getElem_byteBits]
    simp [hin]
  · rw [List.getElem_append_right (by simp [length_byteBits]; omega), List.getElem_replicate]
    simp [hin]

theorem byteBits_inj {a b : UInt8} (h : byteBits a = byteBits b) : a = b := by
  refine UInt8.toNat_inj.1 (Nat.eq_of_testBit_eq fun i => ?_)
  by_cases hi : i < 8
  · have hbit := congrArg (fun bits => bits[7 - i]?) h
    have hback : 7 - (7 - i) = i := by omega
    simpa [byteBits, hback, show 7 - i < 8 by omega] using hbit
  · have hle : 2 ^ 8 ≤ 2 ^ i := Nat.pow_le_pow_right (by decide) (by omega)
    rw [Nat.testBit_lt_two_pow (a.toNat_lt.trans_le hle), Nat.testBit_lt_two_pow (b.toNat_lt.trans_le hle)]

/-- A byte that is cut short is not all ones. -/
theorem maskByte_ne {n : ℕ} (hn : n < 8) (b : UInt8) : maskByte n b ≠ 255 := by
  intro h
  have hzero : false ∈ byteBits (maskByte n b) := by
    rw [byteBits_maskByte hn.le]
    exact List.mem_append_right _ (List.mem_replicate.2 ⟨by omega, rfl⟩)
  rw [h] at hzero
  revert hzero
  decide

theorem length_addrBits (ip : List UInt8) : (addrBits ip).length = 8 * ip.length := by
  induction ip with
  | nil => rfl
  | cons b ip ih =>
    rw [addrBits, List.flatMap_cons, List.length_append, length_byteBits, ← addrBits, ih, List.length_cons]
    omega

theorem addrBits_append (a b : List UInt8) : addrBits (a ++ b) = addrBits a ++ addrBits b := List.flatMap_append

theorem addrBits_inj : ∀ {a b : List UInt8}, addrBits a = addrBits b → a = b
  | [], [], _ => rfl
  | [], b :: bs, h => by
    have hlen := congrArg List.length h
    rw [length_addrBits, length_addrBits] at hlen
    simp at hlen
  | a :: as, [], h => by
    have hlen := congrArg List.length h
    rw [length_addrBits, length_addrBits] at hlen
    simp at hlen
  | a :: as, b :: bs, h => by
    rw [addrBits, addrBits, List.flatMap_cons, List.flatMap_cons] at h
    obtain ⟨hbyte, hrest⟩ := List.append_inj h (by rw [length_byteBits, length_byteBits])
    rw [byteBits_inj hbyte, addrBits_inj hrest]

/-- The first `n` bits, and `v` in the place of the others. -/
def cutBits (v : Bool) (n : ℕ) (bits : List Bool) : List Bool := bits.take n ++ List.replicate (bits.length - n) v

theorem cutBits_of_le {v : Bool} {n : ℕ} {bits : List Bool} (h : bits.length ≤ n) : cutBits v n bits = bits := by
  rw [cutBits, List.take_of_length_le h, Nat.sub_eq_zero_of_le h, List.replicate_zero, List.append_nil]

theorem cutBits_zero (v : Bool) (bits : List Bool) : cutBits v 0 bits = List.replicate bits.length v := by
  rw [cutBits, List.take_zero, List.nil_append, Nat.sub_zero]

theorem cutBits_append (v : Bool) (n : ℕ) (a b : List Bool) :
    cutBits v n (a ++ b) = cutBits v n a ++ cutBits v (n - a.length) b := by
  rw [cutBits, cutBits, cutBits, List.take_append, List.length_append]
  rcases Nat.le_total a.length n with h | h
  · rw [Nat.sub_eq_zero_of_le h, List.replicate_zero, List.append_nil, ← List.append_assoc,
      show a.length + b.length - n = b.length - (n - a.length) by omega]
  · rw [Nat.sub_eq_zero_of_le h, List.take_zero, List.append_nil, List.nil_append, Nat.sub_zero,
      show a.length + b.length - n = (a.length - n) + b.length by omega, List.replicate_add, List.append_assoc]

/-- **Bytes that are each cut** at their place are cut as a whole. -/
theorem addrBits_mapIdx {v : Bool} {ip : List UInt8} {f : ℕ → UInt8 → UInt8} {n : ℕ}
    (h : ∀ i b, ip[i]? = some b → byteBits (f i b) = cutBits v (n - 8 * i) (byteBits b)) :
    addrBits (ip.mapIdx f) = cutBits v n (addrBits ip) := by
  induction ip generalizing f n with
  | nil => simp [addrBits, cutBits]
  | cons b ip ih =>
    have hcons : ∀ (b : UInt8) (ip : List UInt8), addrBits (b :: ip) = byteBits b ++ addrBits ip := fun _ _ => rfl
    rw [List.mapIdx_cons, hcons, hcons, cutBits_append, length_byteBits, h 0 b rfl, Nat.mul_zero, Nat.sub_zero]
    congr 1
    refine ih fun i c hc => ?_
    rw [h (i + 1) c hc]
    congr 1
    omega

@[simp] theorem length_mask (n : ℕ) (ip : List UInt8) : (mask n ip).length = ip.length := by
  induction ip generalizing n with
  | nil => rfl
  | cons b ip ih => rw [mask, List.length_cons, ih, List.length_cons]

/-- **What a mask leaves.** -/
theorem addrBits_mask (n : ℕ) (ip : List UInt8) :
    addrBits (mask n ip) = (addrBits ip).take n ++ List.replicate (8 * ip.length - n) false := by
  induction ip generalizing n with
  | nil => simp [mask, addrBits]
  | cons b ip ih =>
    have hcons : ∀ (b : UInt8) (ip : List UInt8), addrBits (b :: ip) = byteBits b ++ addrBits ip := fun _ _ => rfl
    rw [mask, hcons, hcons, ih, byteBits_maskByte (min_le_right n 8), List.take_append, length_byteBits, List.length_cons]
    rcases Nat.le_total 8 n with h | h
    · have hall : ∀ m, 8 ≤ m → (byteBits b).take m = byteBits b := fun m hm =>
        List.take_of_length_le (by rw [length_byteBits]; exact hm)
      rw [Nat.min_eq_right h, Nat.sub_self, List.replicate_zero, List.append_nil, hall 8 le_rfl, hall n h,
        List.append_assoc]
      congr 3
      omega
    · rw [Nat.min_eq_left h, Nat.sub_eq_zero_of_le h, List.take_zero, List.nil_append, List.append_nil,
        List.append_assoc, ← List.replicate_add]
      congr 2
      omega

theorem mask_eq_iff {n : ℕ} {a b : List UInt8} (hlen : a.length = b.length) :
    mask n a = mask n b ↔ (addrBits a).take n = (addrBits b).take n := by
  constructor
  · intro h
    have hbits := congrArg addrBits h
    rw [addrBits_mask, addrBits_mask, hlen] at hbits
    exact (List.append_inj' hbits rfl).1
  · intro h
    refine addrBits_inj ?_
    rw [addrBits_mask, addrBits_mask, h, hlen]

@[simp] theorem mask_mask (n : ℕ) (ip : List UInt8) : mask n (mask n ip) = mask n ip := by
  have hnone : min (n - min n (8 * ip.length)) (8 * ip.length - n) = 0 := by omega
  rw [mask_eq_iff (length_mask n ip), addrBits_mask, List.take_append, List.take_take, min_self, List.length_take,
    length_addrBits, List.take_replicate, hnone, List.replicate_zero, List.append_nil]

/-- All bits of an address. -/
theorem mask_all {n : ℕ} {ip : List UInt8} (h : 8 * ip.length ≤ n) : mask n ip = ip := by
  refine addrBits_inj ?_
  rw [addrBits_mask, List.take_of_length_le (by rw [length_addrBits]; exact h), Nat.sub_eq_zero_of_le h,
    List.replicate_zero, List.append_nil]

theorem maskByte_zero (b : UInt8) : maskByte 0 b = 0 := by
  rw [maskByte]
  exact UInt8.and_zero

theorem mask_zero (ip : List UInt8) : mask 0 ip = List.replicate ip.length 0 := by
  induction ip with
  | nil => rfl
  | cons b ip ih => rw [mask, ih, List.length_cons, List.replicate_succ, Nat.zero_min, maskByte_zero]

theorem maskByte_eight (b : UInt8) : maskByte 8 b = b := by
  refine byteBits_inj ?_
  rw [byteBits_maskByte le_rfl, List.take_of_length_le (by rw [length_byteBits]), Nat.sub_self, List.replicate_zero,
    List.append_nil]

/-- One byte of a masked address. -/
theorem getElem?_mask (n i : ℕ) (ip : List UInt8) : (mask n ip)[i]? = ip[i]?.map (maskByte (min (n - 8 * i) 8)) := by
  induction ip generalizing n i with
  | nil => rfl
  | cons b ip ih =>
    cases i with
    | zero => simp [mask]
    | succ i =>
      rw [mask, List.getElem?_cons_succ, List.getElem?_cons_succ, ih]
      congr 3
      omega

/-- A network of fewer than 96 bits is none of IPv4-mapped addresses. -/
theorem to4_mask {n : ℕ} {ip : List UInt8} (h16 : ip.length = 16) (hn : n < 96) : to4 (mask n ip) = none := by
  by_contra hne
  obtain ⟨v4, h4⟩ := Option.ne_none_iff_exists'.1 hne
  rw [to4, if_neg (by rw [length_mask, h16]; decide)] at h4
  split at h4
  · rename_i hmapped
    have hbyte : (mask n ip)[11]? = some 255 := by
      have := congrArg (fun l => l[11]?) hmapped.2
      rwa [List.getElem?_take_of_lt (by decide)] at this
    rw [getElem?_mask] at hbyte
    obtain ⟨b, -, hb⟩ := Option.map_eq_some_iff.1 hbyte
    exact maskByte_ne (by omega) b hb
  · cases h4

/-! ### Prefixes -/

/-- `netip.Prefix`, of those that are valid. -/
@[ext] structure Prefix where
  addr : List UInt8
  bits : ℕ
  size : addr.length = 4 ∨ addr.length = 16
  le : bits ≤ 8 * addr.length
  deriving DecidableEq

namespace Prefix

variable {p q : Prefix} {ip : List UInt8}

/-- `netip.PrefixFrom`. -/
def from' (ip : List UInt8) (bits : ℕ) : Option Prefix :=
  if h : (ip.length = 4 ∨ ip.length = 16) ∧ bits ≤ 8 * ip.length then some ⟨ip, bits, h.1, h.2⟩ else none

/-- `Masked`. -/
def masked (p : Prefix) : Prefix :=
  ⟨mask p.bits p.addr, p.bits, by rw [length_mask]; exact p.size, by rw [length_mask]; exact p.le⟩

/-- `IsSingleIP`. -/
def isSingleIP (p : Prefix) : Bool := p.bits = 8 * p.addr.length

/-- The network contains the address: it has the length of its addresses, and its first bits. -/
def Covers (p : Prefix) (ip : List UInt8) : Prop :=
  ip.length = p.addr.length ∧ (addrBits ip).take p.bits = (addrBits p.addr).take p.bits

/-- The bits after the network are cleared. -/
def IsMasked (p : Prefix) : Prop := mask p.bits p.addr = p.addr

theorem masked_isMasked (p : Prefix) : p.masked.IsMasked := mask_mask p.bits p.addr

theorem covers_iff_mask : p.Covers ip ↔ ip.length = p.addr.length ∧ mask p.bits ip = mask p.bits p.addr :=
  and_congr_right fun hlen => (mask_eq_iff hlen).symm

/-- `Prefix.Contains`, of an address without a zone. -/
def contains (p : Prefix) (ip : List UInt8) : Bool := ip.length = p.addr.length && mask p.bits ip = mask p.bits p.addr

theorem contains_iff : p.contains ip = true ↔ p.Covers ip := by simp [contains, covers_iff_mask]

/-- The same addresses are in a network and in its masked form. -/
theorem covers_masked : p.masked.Covers ip ↔ p.Covers ip := by
  rw [covers_iff_mask, covers_iff_mask, masked]
  dsimp only
  rw [length_mask, mask_mask]

theorem from'_eq_some {bits : ℕ} : from' ip bits = some p ↔ p.addr = ip ∧ p.bits = bits := by
  unfold from'
  constructor
  · intro h
    split at h
    · cases h
      exact ⟨rfl, rfl⟩
    · cases h
  · rintro ⟨rfl, rfl⟩
    rw [dif_pos ⟨p.size, p.le⟩]

end Prefix

/-- `Addr.Prefix`, of a valid address. -/
def addrPrefix (ip : List UInt8) (bits : ℕ) : Option Prefix := (Prefix.from' ip bits).map Prefix.masked

/-- **A masked network contains an address** exactly when it is the network of its length around the address. -/
theorem covers_iff_addrPrefix {p : Prefix} {ip : List UInt8} (hm : p.IsMasked) :
    p.Covers ip ↔ addrPrefix ip p.bits = some p := by
  rw [Prefix.covers_iff_mask, hm, addrPrefix, Option.map_eq_some_iff]
  constructor
  · rintro ⟨hlen, hmask⟩
    refine ⟨⟨ip, p.bits, by rw [hlen]; exact p.size, by rw [hlen]; exact p.le⟩, Prefix.from'_eq_some.2 ⟨rfl, rfl⟩, ?_⟩
    exact Prefix.ext hmask rfl
  · rintro ⟨q, hq, rfl⟩
    obtain ⟨rfl, -⟩ := Prefix.from'_eq_some.1 hq
    exact ⟨(length_mask _ _).symm, rfl⟩

theorem addrPrefix_isMasked {p : Prefix} {ip : List UInt8} {bits : ℕ} (h : addrPrefix ip bits = some p) :
    p.IsMasked ∧ p.bits = bits := by
  obtain ⟨q, hq, rfl⟩ := Option.map_eq_some_iff.1 h
  exact ⟨q.masked_isMasked, (Prefix.from'_eq_some.1 hq).2⟩

/-! ### IPv4-mapped addresses -/

/-- `Is4In6`. -/
def is4In6 (ip : List UInt8) : Bool := ip.length = 16 && ip.take 12 = List.replicate 10 0 ++ [255, 255]

theorem is4In6_iff {ip : List UInt8} :
    is4In6 ip = true ↔ ip.length = 16 ∧ ip.take 12 = List.replicate 10 0 ++ [255, 255] := by
  simp [is4In6]

/-- `Addr.Unmap`, of the bytes. -/
def unmapAddr (ip : List UInt8) : List UInt8 := if is4In6 ip then ip.drop 12 else ip

theorem length_drop_is4In6 {ip : List UInt8} (h : is4In6 ip = true) : (ip.drop 12).length = 4 := by
  rw [List.length_drop, (is4In6_iff.1 h).1]

theorem is4In6_unmapAddr (ip : List UInt8) : is4In6 (unmapAddr ip) = false := by
  unfold unmapAddr
  split
  · rename_i h
    simp [is4In6, length_drop_is4In6 h]
  · rename_i h
    exact Bool.eq_false_iff.2 h

namespace Prefix

/-- A network of IPv4-mapped addresses. -/
def IsMapped (p : Prefix) : Prop := is4In6 p.addr = true ∧ 96 ≤ p.bits

instance (p : Prefix) : Decidable p.IsMapped := by unfold IsMapped; infer_instance

/-- The IPv4 network of a network of IPv4-mapped addresses. -/
def unmapped (p : Prefix) : Prefix :=
  if h : p.IsMapped then
    ⟨p.addr.drop 12, p.bits - 96, Or.inl (length_drop_is4In6 h.1), by
      have hle := p.le
      rw [(is4In6_iff.1 h.1).1] at hle
      rw [length_drop_is4In6 h.1]
      omega⟩
  else p

variable {p : Prefix} {ip : List UInt8}

theorem unmapped_of_mapped (h : p.IsMapped) : p.unmapped.addr = p.addr.drop 12 ∧ p.unmapped.bits = p.bits - 96 := by
  unfold unmapped
  rw [dif_pos h]
  exact ⟨rfl, rfl⟩

theorem unmapped_of_not_mapped (h : ¬ p.IsMapped) : p.unmapped = p := dif_neg h

/-- **No network that has been unmapped and masked** has an IPv4-mapped address for its first. -/
theorem is4In6_unmapped (p : Prefix) : is4In6 p.unmapped.masked.addr = false := by
  rw [Bool.eq_false_iff]
  intro h
  obtain ⟨h16, htake⟩ := is4In6_iff.1 h
  rw [masked, length_mask] at h16
  by_cases hp : p.IsMapped
  · rw [(unmapped_of_mapped hp).1, length_drop_is4In6 hp.1] at h16
    cases h16
  · rw [unmapped_of_not_mapped hp] at h16 htake
    rcases Nat.lt_or_ge p.bits 96 with hb | hb
    · have hnone := to4_mask h16 hb
      rw [to4, if_neg (by rw [length_mask, h16]; decide), if_pos ⟨by rw [length_mask, h16], htake⟩] at hnone
      cases hnone
    · -- the mask leaves the first twelve bytes as they are
      have hsame : p.masked.addr.take 12 = p.addr.take 12 := by
        refine List.ext_getElem? fun i => ?_
        rw [List.getElem?_take, List.getElem?_take]
        split
        · rename_i hi
          rw [masked, getElem?_mask, Nat.min_eq_right (by omega), funext maskByte_eight, Option.map_id']
        · rfl
      exact hp ⟨is4In6_iff.2 ⟨h16, by rw [← hsame, htake]⟩, hb⟩

/-- **A network of IPv4-mapped addresses** has the IPv4 addresses whose mapped forms it has. -/
theorem covers_unmapped (hp : p.IsMapped) (h : ip.length = 4) :
    p.unmapped.Covers ip ↔ p.Covers (List.replicate 10 0 ++ [255, 255] ++ ip) := by
  obtain ⟨h16, htake⟩ := is4In6_iff.1 hp.1
  have hfront : (addrBits (List.replicate 10 0 ++ [255, 255])).length = 96 := by
    rw [length_addrBits]
    rfl
  have htaken : ∀ rest : List UInt8, (addrBits (List.replicate 10 0 ++ [255, 255] ++ rest)).take p.bits =
      addrBits (List.replicate 10 0 ++ [255, 255]) ++ (addrBits rest).take (p.bits - 96) := by
    intro rest
    rw [addrBits_append, List.take_append, hfront, List.take_of_length_le (by rw [hfront]; exact hp.2)]
  have haddr : p.addr = List.replicate 10 0 ++ [255, 255] ++ p.addr.drop 12 := by
    rw [← htake, List.take_append_drop]
  obtain ⟨hdrop, hbits⟩ := unmapped_of_mapped hp
  unfold Covers
  rw [hdrop, hbits, htaken, length_drop_is4In6 hp.1, h16]
  conv_rhs => rw [haddr, htaken]
  rw [List.append_right_inj]
  simp [h]

end Prefix

/-! ### Texts -/

/-- The number after the slash: decimal, without a sign and without a leading zero. -/
def prefixBits (s : Str) : Option ℕ :=
  if s ≠ [] ∧ s.all Char.isDigit ∧ (s.length = 1 ∨ s.head? ≠ some '0') then some (Nat.ofDigitChars 10 s 0) else none

/-- `strings.Cut` at the last slash. -/
def cutSlash (s : Str) : Option (Str × Str) :=
  match s.reverse.span (· ≠ '/') with
  | (tail, _ :: head) => some (head.reverse, tail.reverse)
  | (_, []) => none

/-- `netip.ParsePrefix`. -/
def parseNetipPrefix (s : Str) : Option Prefix := do
  let (address, length) ← cutSlash s
  let ip ← parseAddr address
  let bits ← prefixBits length
  Prefix.from' ip bits

/-- `Prefix.String`. -/
def Prefix.string (p : Prefix) : Str := addrString p.addr ++ '/' :: decimal p.bits

theorem cutSlash_append {a b : Str} (hb : '/' ∉ b) : cutSlash (a ++ '/' :: b) = some (a, b) := by
  have hall : ∀ c ∈ b.reverse, decide (c ≠ '/') = true := by
    intro c hc
    rw [decide_eq_true_eq]
    rintro rfl
    exact hb (List.mem_reverse.1 hc)
  unfold cutSlash
  rw [List.reverse_append, List.reverse_cons, List.append_assoc, List.singleton_append, List.span_eq_takeWhile_dropWhile,
    List.takeWhile_append_of_pos hall, List.dropWhile_append_of_pos hall]
  simp

theorem slash_mem_of_parse {s : Str} {p : Prefix} (h : parseNetipPrefix s = some p) : '/' ∈ s := by
  by_contra hno
  have hall : ∀ c ∈ s.reverse, decide (c ≠ '/') = true := by
    intro c hc
    rw [decide_eq_true_eq]
    rintro rfl
    exact hno (List.mem_reverse.1 hc)
  have hcut : cutSlash s = none := by
    unfold cutSlash
    rw [List.span_eq_takeWhile_dropWhile, List.dropWhile_eq_nil_iff.2 hall]
  rw [parseNetipPrefix, hcut] at h
  cases h

/-- A positive number has no leading zero. -/
theorem head?_decimal {n : ℕ} (hn : 0 < n) : (decimal n).head? ≠ some '0' := by
  induction n using Nat.strongRecOn with
  | ind n ih =>
    rw [decimal, Nat.toDigits_eq_if (by decide)]
    split
    · have hdigit : ∀ m : Fin 10, 0 < m.val → Nat.digitChar m.val ≠ '0' := by decide
      rename_i hlt
      simpa using hdigit ⟨n, hlt⟩ hn
    · have hpos : 0 < n / 10 := Nat.div_pos (by omega) (by decide)
      rw [List.head?_append_of_ne_nil _ Nat.toDigits_ne_nil]
      exact ih (n / 10) (by omega) hpos

theorem prefixBits_decimal (n : ℕ) : prefixBits (decimal n) = some n := by
  have hvalue : Nat.ofDigitChars 10 (decimal n) 0 = n := by simp [decimal, Nat.ofDigitChars_toDigits]
  have hdigits : (decimal n).all Char.isDigit = true :=
    List.all_eq_true.2 fun c hc => Nat.isDigit_of_mem_toDigits (by omega) (by omega) hc
  unfold prefixBits
  rw [if_pos, hvalue]
  refine ⟨Nat.toDigits_ne_nil, hdigits, ?_⟩
  rcases Nat.eq_zero_or_pos n with rfl | hn
  · exact Or.inl (by decide)
  · exact Or.inr (head?_decimal hn)

/-- **A network that is printed and read again is the same.** -/
theorem parseNetipPrefix_string (p : Prefix) : parseNetipPrefix p.string = some p := by
  have hslash : '/' ∉ decimal p.bits := notMem_decimal (by decide) _
  unfold parseNetipPrefix Prefix.string
  rw [cutSlash_append hslash, Option.bind_eq_bind, Option.bind_some]
  dsimp only
  rw [parseAddr_addrString_of_length p.size, prefixBits_decimal]
  exact Prefix.from'_eq_some.2 ⟨rfl, rfl⟩

/-- The characters of an address or a network. -/
theorem mem_string {p : Prefix} {c : Char} (h : c ∈ p.string) :
    (hexDigit c).isSome = true ∨ c = ':' ∨ c = '.' ∨ c = '/' := by
  rcases List.mem_append.1 h with h | h
  · rcases mem_addrString h with h | h | h
    · exact Or.inl h
    · exact Or.inr (Or.inl h)
    · exact Or.inr (Or.inr (Or.inl h))
  · rcases List.mem_cons.1 h with h | h
    · exact Or.inr (Or.inr (Or.inr h))
    · have hdigit := Nat.isDigit_of_mem_toDigits (b := 10) (by omega) (by omega) h
      exact Or.inl (by simp [hexDigit, hdigit])

end Velora.Lib.Ip
