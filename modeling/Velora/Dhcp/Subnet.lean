import Velora.Dhcp.Net
import Velora.Lib.Prefix

/-!
# The bits of a subnet

`networkAddr`, `broadcastAddr` and `LeaseToSubnet` bit by bit. The last address and the mask are what they should be for every
IPv4 prefix. The first address is, too, unless the prefix ends between two bytes and the byte behind it is not zero: that byte
is left as it is.
-/

namespace Velora.Dhcp

open Velora.Lib Velora.Lib.Text Velora.Lib.Ip

/-- The loop of `LeaseToSubnet`, over `n` bytes with the ones that are left. -/
def maskBytes : ℕ → ℕ → List UInt8
  | 0, _ => []
  | n + 1, ones =>
    if 8 ≤ ones then 0xFF :: maskBytes n (ones - 8)
    else if 0 < ones then (0xFF <<< UInt8.ofNat (8 - ones)) :: maskBytes n 0
    else 0 :: maskBytes n ones

/-- `LeaseToSubnet`. -/
def leaseToSubnet (subnet : Prefix) : List UInt8 := maskBytes 4 subnet.bits

example : leaseToSubnet ⟨[192, 168, 1, 77], 27, rfl, by decide⟩ = [255, 255, 255, 224] := by decide

/-- The host bits are clear in the first address and set in the last one, and the mask has a one for each of the others. -/
structure Prefix.Exact (p : Prefix) : Prop where
  network : addrBits (networkAddr p) = (addrBits p.addr).take p.bits ++ List.replicate (32 - p.bits) false
  broadcast : addrBits (broadcastAddr p) = (addrBits p.addr).take p.bits ++ List.replicate (32 - p.bits) true
  mask : addrBits (leaseToSubnet p) = List.replicate p.bits true ++ List.replicate (32 - p.bits) false

/-! ### Bytes -/

theorem byteBits_shiftLeft {r : ℕ} (h0 : 0 < r) (h8 : r < 8) (b : UInt8) :
    byteBits (b &&& (0xFF <<< UInt8.ofNat (8 - r))) = cutBits false r (byteBits b) := by
  have hmask : ∀ r : Fin 8, 0 < r.val → (0xFF : UInt8) <<< UInt8.ofNat (8 - r.val) = UInt8.ofNat (256 - 2 ^ (8 - r.val)) := by
    decide
  rw [hmask ⟨r, h8⟩ h0, cutBits, length_byteBits]
  exact byteBits_maskByte h8.le b

theorem byteBits_shiftRight {r : ℕ} (h8 : r < 8) (b : UInt8) :
    byteBits (b ||| (0xFF >>> UInt8.ofNat r)) = cutBits true r (byteBits b) := by
  have hmask : ∀ r i : Fin 8, ((0xFF : UInt8) >>> UInt8.ofNat r.val).toNat.testBit (7 - i.val) = decide (r.val ≤ i.val) := by
    decide +kernel
  refine List.ext_getElem (by simp [cutBits, length_byteBits, h8.le]) fun i hi hi' => ?_
  have hi8 : i < 8 := (length_byteBits _) ▸ hi
  rw [getElem_byteBits, UInt8.toNat_or, Nat.testBit_or, hmask ⟨r, h8⟩ ⟨i, hi8⟩]
  simp only [cutBits]
  by_cases hir : r ≤ i
  · rw [List.getElem_append_right (by simp [length_byteBits]; omega), List.getElem_replicate]
    simp [hir]
  · rw [List.getElem_append_left (by simp [length_byteBits]; omega), List.getElem_take, getElem_byteBits]
    simp [hir]

theorem byteBits_zero : byteBits 0 = List.replicate 8 false := by decide

theorem byteBits_ones : byteBits 0xFF = List.replicate 8 true := by decide

/-! ### The last address -/

theorem cut_addr (v : Bool) (p : Prefix) :
    cutBits v p.bits (addrBits p.addr) = (addrBits p.addr).take p.bits ++ List.replicate (32 - p.bits) v := by
  rw [cutBits, length_addrBits, p.four]

theorem broadcast_bits (p : Prefix) :
    addrBits (broadcastAddr p) = (addrBits p.addr).take p.bits ++ List.replicate (32 - p.bits) true := by
  rw [← cut_addr, broadcastAddr]
  refine addrBits_mapIdx fun i b _ => ?_
  split
  · -- the byte the prefix ends in
    rename_i hends
    rw [byteBits_shiftRight (by omega), show p.bits - 8 * i = p.bits % 8 by omega]
  split
  · rename_i hends hbehind
    rw [show p.bits - 8 * i = 0 by omega, cutBits_zero, length_byteBits]
    exact byteBits_ones
  · rename_i hbefore
    rw [cutBits_of_le (by rw [length_byteBits]; omega)]

/-! ### The mask -/

theorem mask_cut (n ones : ℕ) : addrBits (maskBytes n ones) = cutBits false ones (List.replicate (8 * n) true) := by
  induction n generalizing ones with
  | zero => simp [maskBytes, addrBits, cutBits]
  | succ n ih =>
    have hcons : ∀ (b : UInt8) (ip : List UInt8), addrBits (b :: ip) = byteBits b ++ addrBits ip := fun _ _ => rfl
    have hsplit : List.replicate (8 * (n + 1)) true = byteBits 0xFF ++ List.replicate (8 * n) true := by
      rw [byteBits_ones, ← List.replicate_add, Nat.mul_succ, Nat.add_comm]
    rw [hsplit, cutBits_append, length_byteBits, maskBytes]
    split
    · rename_i hfull
      have hhead : cutBits false ones (byteBits 0xFF) = byteBits 0xFF := cutBits_of_le (by rw [length_byteBits]; exact hfull)
      rw [hcons, ih, hhead]
    split
    · rename_i hless hones
      have hall : ∀ r : Fin 9, (0xFF : UInt8) <<< UInt8.ofNat r.val = (0xFF : UInt8) &&& ((0xFF : UInt8) <<< UInt8.ofNat r.val) := by
        decide
      have hbyte : (0xFF : UInt8) <<< UInt8.ofNat (8 - ones) = (0xFF : UInt8) &&& ((0xFF : UInt8) <<< UInt8.ofNat (8 - ones)) :=
        hall ⟨8 - ones, by omega⟩
      rw [hcons, ih, hbyte, byteBits_shiftLeft hones (by omega), show ones - 8 = 0 by omega]
    · rename_i hless hones
      have hhead : cutBits false ones (byteBits 0xFF) = byteBits 0 := by
        rw [show ones = 0 by omega, cutBits_zero, length_byteBits, byteBits_zero]
      rw [hcons, ih, hhead, show ones - 8 = ones by omega]

theorem mask_bits (p : Prefix) :
    addrBits (leaseToSubnet p) = List.replicate p.bits true ++ List.replicate (32 - p.bits) false := by
  rw [leaseToSubnet, mask_cut, cutBits, List.take_replicate, List.length_replicate, Nat.min_eq_left p.le]

/-! ### The first address -/

/-- **The first address.** The byte behind a prefix that ends between two bytes is left as it is. -/
theorem network_bits_iff (p : Prefix) :
    addrBits (networkAddr p) = (addrBits p.addr).take p.bits ++ List.replicate (32 - p.bits) false ↔
      (p.bits % 8 = 0 → ∀ b, p.addr[p.bits / 8]? = some b → b = 0) := by
  rw [← cut_addr, networkAddr]
  constructor
  · intro h hbyte b hb
    have hmask : networkAddr p = mask p.bits p.addr := by
      refine addrBits_inj ?_
      rw [networkAddr, h, addrBits_mask, cutBits, length_addrBits]
    have hleft : (networkAddr p)[p.bits / 8]? = some b := by
      simp [networkAddr, hb, hbyte]
    rw [hmask, getElem?_mask, hb, show p.bits - 8 * (p.bits / 8) = 0 by omega, Option.map_some, Nat.zero_min, maskByte_zero] at hleft
    exact (Option.some.inj hleft).symm
  · intro h
    refine addrBits_mapIdx fun i b hb => ?_
    split
    · rename_i hends
      rw [byteBits_shiftLeft (by omega) (by omega), show p.bits - 8 * i = p.bits % 8 by omega]
    split
    · rename_i hends hbehind
      rw [show p.bits - 8 * i = 0 by omega, cutBits_zero, length_byteBits]
      exact byteBits_zero
    · rename_i hends hbehind
      by_cases hi : i < p.bits / 8
      · rw [cutBits_of_le (by rw [length_byteBits]; omega)]
      · -- the byte behind the prefix, which has to be zero
        obtain rfl : i = p.bits / 8 := by omega
        have hbyte : p.bits % 8 = 0 := by omega
        rw [h hbyte b hb, show p.bits - 8 * (p.bits / 8) = 0 by omega, cutBits_zero, length_byteBits]
        exact byteBits_zero

/-! ### All three -/

/-- **The arithmetic of a subnet** is right exactly when the prefix does not end between two bytes of which the second is not
zero. -/
theorem subnet_exact_iff (p : Prefix) :
    p.Exact ↔ (p.bits % 8 = 0 → ∀ b, p.addr[p.bits / 8]? = some b → b = 0) :=
  ⟨fun h => (network_bits_iff p).1 h.network, fun h => ⟨(network_bits_iff p).2 h, broadcast_bits p, mask_bits p⟩⟩

/-- Every IPv4 prefix is the subnet of a pool that is accepted. -/
theorem exists_pool (p : Prefix) : ∃ pool, validatePool pool = none ∧ pool.subnet = p.net := by
  have hne : p.addr ≠ [] := by
    intro hnil
    have hfour := p.four
    rw [hnil] at hfour
    cases hfour
  refine ⟨⟨"lan".toList, "eth0".toList, p.net, p.addr, 60⟩, ?_, rfl⟩
  simp [validatePool, Net.isValid, Net.contains, Prefix.net, hne]

/-- The network of an address that is not masked, as the administrator may type it. -/
def typedLan : Prefix := ⟨[192, 168, 1, 77], 8 * 3, rfl, by decide⟩

/-- The pool is accepted, and its first address is the address that was typed. -/
theorem typedLan_first : validatePool ⟨"lan".toList, "eth0".toList, typedLan.net, [192, 168, 1, 1], 3600⟩ = none ∧
    networkAddr typedLan = [192, 168, 1, 77] ∧ ¬ typedLan.Exact := by
  refine ⟨by decide +kernel, by decide, fun h => ?_⟩
  have hbits := h.network
  revert hbits
  decide +kernel

end Velora.Dhcp
