import Velora.Dhcp.Exclusive

/-!
# The range of an IPv4 prefix

The ends that `networkAddr` and `broadcastAddr` compute, as numbers, and the scan from one to the other. `broadcastAddr` is
the last address of the prefix; `networkAddr` is its first one only if the address of the prefix has been masked, or if the
prefix does not end between two bytes. When both are the same address the scan starts after its end (`search_past`), and at
0.0.0.0 it does not start (`search_stuck`); on any other range it ends, and only at a host (`scan_hosts`).
-/

namespace Velora.Dhcp

open Velora.Lib Velora.Lib.Text Velora.Lib.Ip

/-! ### The numbers of the addresses of a prefix -/

theorem value_four (a b c d : UInt8) :
    value [a, b, c, d] = ((a.toNat * 256 + b.toNat) * 256 + c.toNat) * 256 + d.toNat := by
  simp [value]

/-- An address of four bytes. -/
theorem four_bytes {ip : List UInt8} (h : ip.length = 4) : ∃ a b c d, ip = [a, b, c, d] := by
  match ip, h with
  | [a, b, c, d], _ => exact ⟨a, b, c, d, rfl⟩

theorem value_lt {ip : List UInt8} (h : ip.length = 4) : value ip < 2 ^ 32 := by
  obtain ⟨a, b, c, d, rfl⟩ := four_bytes h
  have := a.toNat_lt
  have := b.toNat_lt
  have := c.toNat_lt
  have := d.toNat_lt
  rw [value_four]
  omega

theorem value_inj {ip ip' : List UInt8} (h : ip.length = 4) (h' : ip'.length = 4) (heq : value ip = value ip') : ip = ip' := by
  obtain ⟨a, b, c, d, rfl⟩ := four_bytes h
  obtain ⟨a', b', c', d', rfl⟩ := four_bytes h'
  have := a.toNat_lt
  have := b.toNat_lt
  have := c.toNat_lt
  have := d.toNat_lt
  have := a'.toNat_lt
  have := b'.toNat_lt
  have := c'.toNat_lt
  have := d'.toNat_lt
  rw [value_four, value_four] at heq
  have ha : a = a' := UInt8.toNat_inj.1 (by omega)
  have hb : b = b' := UInt8.toNat_inj.1 (by omega)
  have hc : c = c' := UInt8.toNat_inj.1 (by omega)
  have hd : d = d' := UInt8.toNat_inj.1 (by omega)
  rw [ha, hb, hc, hd]

/-- `x++` of a byte. -/
theorem toNat_succ (x : UInt8) : (x + 1 ≠ 0 ∧ (x + 1).toNat = x.toNat + 1 ∧ x.toNat < 255) ∨ (x + 1 = 0 ∧ x.toNat = 255) := by
  have hx := x.toNat_lt
  have hadd : (x + 1).toNat = (x.toNat + 1) % 256 := by
    rw [UInt8.toNat_add]
    rfl
  have hiff : x + 1 = 0 ↔ (x + 1).toNat = 0 := by rw [← UInt8.toNat_inj]; rfl
  rw [Ne, hiff]
  omega

/-- `ip4[3]++` with its carries: the next number, and 0 after the last one; 0 stays. -/
theorem value_nextIP {ip : List UInt8} (h : ip.length = 4) (hpos : value ip ≠ 0) :
    value (nextIP ip) = (value ip + 1) % 2 ^ 32 := by
  obtain ⟨a, b, c, d, rfl⟩ := four_bytes h
  have ha := a.toNat_lt
  have hb := b.toNat_lt
  have hc := c.toNat_lt
  have hd := d.toNat_lt
  have h0 : (0 : UInt8).toNat = 0 := rfl
  have hzero : [a, b, c, d] ≠ [0, 0, 0, 0] := by
    rintro heq
    exact hpos (by rw [heq]; rfl)
  rw [nextIP, if_neg hzero, value_four]
  rcases toNat_succ d with ⟨hd', hdv, hlt⟩ | ⟨hd', hdv⟩
  · rw [if_pos hd', value_four]
    omega
  rw [if_neg (not_not.2 hd')]
  rcases toNat_succ c with ⟨hc', hcv, hlt⟩ | ⟨hc', hcv⟩
  · rw [if_pos hc', value_four]
    omega
  rw [if_neg (not_not.2 hc')]
  rcases toNat_succ b with ⟨hb', hbv, hlt⟩ | ⟨hb', hbv⟩
  · rw [if_pos hb', value_four]
    omega
  rw [if_neg (not_not.2 hb'), value_four]
  rcases toNat_succ a with ⟨-, hav, hlt⟩ | ⟨ha', hav⟩
  · omega
  · have hzero' : (a + 1).toNat = 0 := by rw [ha', h0]
    omega

theorem nextIP_zero {ip : List UInt8} (h : ip.length = 4) (hzero : value ip = 0) : nextIP ip = ip := by
  obtain rfl : ip = [0, 0, 0, 0] := value_inj h rfl hzero
  rfl

/-- The number of addresses of a prefix, and the first and the last of them. -/
def Prefix.size (p : Prefix) : ℕ := 2 ^ (32 - p.bits)

def Prefix.first (p : Prefix) : ℕ := value p.addr / p.size * p.size

def Prefix.last (p : Prefix) : ℕ := p.first + (p.size - 1)

theorem Prefix.contains_iff {p : Prefix} {ip : List UInt8} :
    p.contains ip = true ↔ ip.length = 4 ∧ p.first ≤ value ip ∧ value ip ≤ p.last := by
  have hpos : 0 < p.size := Nat.two_pow_pos _
  simp only [Prefix.contains, Bool.and_eq_true, beq_iff_eq, Prefix.first, Prefix.last]
  rw [← Prefix.size, Nat.div_eq_iff hpos]
  generalize value p.addr / p.size * p.size = n
  omega

/-- The byte in which the prefix ends, with its last bits cleared and set. -/
theorem toNat_masked (b : UInt8) {r : ℕ} (hr : r < 8) :
    b.toNat / 2 ^ (8 - r) * 2 ^ (8 - r) ≤ (if r = 0 then b else b &&& (0xFF <<< UInt8.ofNat (8 - r))).toNat ∧
    (if r = 0 then b else b &&& (0xFF <<< UInt8.ofNat (8 - r))).toNat ≤
      b.toNat / 2 ^ (8 - r) * 2 ^ (8 - r) + (2 ^ (8 - r) - 1) ∧
    (if r = 0 then (0xFF : UInt8) else b ||| (0xFF >>> UInt8.ofNat r)).toNat =
      b.toNat / 2 ^ (8 - r) * 2 ^ (8 - r) + (2 ^ (8 - r) - 1) := by
  have hall : ∀ r : Fin 8, ∀ n : Fin 256,
      (UInt8.ofNat n).toNat / 2 ^ (8 - r.val) * 2 ^ (8 - r.val) ≤
        (if r.val = 0 then UInt8.ofNat n else UInt8.ofNat n &&& (0xFF <<< UInt8.ofNat (8 - r))).toNat ∧
      (if r.val = 0 then UInt8.ofNat n else UInt8.ofNat n &&& (0xFF <<< UInt8.ofNat (8 - r))).toNat ≤
        (UInt8.ofNat n).toNat / 2 ^ (8 - r.val) * 2 ^ (8 - r.val) + (2 ^ (8 - r.val) - 1) ∧
      (if r.val = 0 then (0xFF : UInt8) else UInt8.ofNat n ||| (0xFF >>> UInt8.ofNat r)).toNat =
        (UInt8.ofNat n).toNat / 2 ^ (8 - r.val) * 2 ^ (8 - r.val) + (2 ^ (8 - r.val) - 1) := by
    decide +kernel
  simpa using hall ⟨r, hr⟩ ⟨b.toNat, b.toNat_lt⟩

/-- Rounding down a number whose digits below `k` do not count, with `m` a divisor of the byte above them. -/
theorem floor_digits {w b k y m n : ℕ} (hm : m * n = 256) (hy : y < k) :
    ((w * 256 + b) * k + y) / (m * k) * (m * k) = (w * 256 + b / m * m) * k := by
  have hpos : 0 < m := Nat.pos_of_mul_pos_right (hm ▸ by decide : 0 < m * n)
  have hdiv : ((w * 256 + b) * k + y) / k = w * 256 + b := by
    rw [Nat.mul_comm, Nat.mul_add_div (by omega), Nat.div_eq_of_lt hy, Nat.add_zero]
  have hbyte : (w * 256 + b) / m = w * n + b / m := by
    rw [← hm, ← Nat.mul_assoc, Nat.mul_comm w m, Nat.mul_assoc, Nat.mul_add_div hpos]
  rw [Nat.mul_comm m k, ← Nat.div_div_eq_div_mul, hdiv, hbyte, ← hm]
  ring

/-- The ends of a range that is cut within the byte `x`, when the bytes below it are all cleared and all set. -/
theorem ends_of_byte {w lo up x l y m n v : ℕ} (hm : m * n = 256) (hy : y < l + 1) (hv : v = (w * 256 + x) * (l + 1) + y)
    (hlo : x / m * m ≤ lo ∧ lo ≤ x / m * m + (m - 1)) (hup : up = x / m * m + (m - 1)) :
    (w * 256 + up) * (l + 1) + l = v / (m * (l + 1)) * (m * (l + 1)) + (m * (l + 1) - 1) ∧
    v / (m * (l + 1)) * (m * (l + 1)) ≤ (w * 256 + lo) * (l + 1) ∧
    (w * 256 + lo) * (l + 1) ≤ v / (m * (l + 1)) * (m * (l + 1)) + (m * (l + 1) - 1) := by
  obtain ⟨m, rfl⟩ : ∃ m', m = m' + 1 := ⟨m - 1, by rcases m with _ | m <;> omega⟩
  rw [hv, floor_digits hm hy]
  generalize x / (m + 1) * (m + 1) = f at hlo hup
  obtain ⟨e, rfl⟩ := Nat.exists_eq_add_of_le hlo.1
  have he : e * (l + 1) ≤ m * (l + 1) := Nat.mul_le_mul_right _ (by omega)
  have hsub : m + 1 - 1 = m := rfl
  rw [hup, hsub]
  have h1 : (w * 256 + (f + m)) * (l + 1) = (w * 256 + f) * (l + 1) + m * (l + 1) := by ring
  have h2 : (w * 256 + (f + e)) * (l + 1) = (w * 256 + f) * (l + 1) + e * (l + 1) := by ring
  have h3 : (m + 1) * (l + 1) = m * (l + 1) + (l + 1) := by ring
  rw [h1, h2, h3]
  omega

theorem length_broadcastAddr (p : Prefix) : (broadcastAddr p).length = 4 := by rw [broadcastAddr, List.length_mapIdx, p.four]

/-- `broadcastAddr` is the last address of the prefix, and `networkAddr` one of its addresses. -/
theorem value_ends (p : Prefix) :
    value (broadcastAddr p) = p.last ∧ p.first ≤ value (networkAddr p) ∧ value (networkAddr p) ≤ p.last := by
  obtain ⟨addr, bits, four, le⟩ := p
  obtain ⟨a, b, c, d, rfl⟩ := four_bytes four
  have hb := b.toNat_lt
  have hc := c.toNat_lt
  have hd := d.toNat_lt
  obtain ⟨q, r, hq, hr, hr8⟩ : ∃ q r, bits / 8 = q ∧ bits % 8 = r ∧ r < 8 := ⟨_, _, rfl, rfl, Nat.mod_lt _ (by decide)⟩
  have hm : 2 ^ (8 - r) * 2 ^ r = 256 := by rw [← pow_add, show 8 - r + r = 8 by omega]; rfl
  have hsize (n l : ℕ) (hl : 2 ^ n = l + 1) (hn : 32 - bits = 8 - r + n) : 2 ^ (32 - bits) = 2 ^ (8 - r) * (l + 1) := by
    rw [hn, pow_add, hl]
  have hbyte (x : UInt8) := toNat_masked x hr8
  simp only [broadcastAddr, networkAddr, Prefix.last, Prefix.first, Prefix.size, hq, hr]
  generalize hv : value [a, b, c, d] = v
  rw [value_four] at hv
  -- the byte `q` in which the prefix ends
  have hq5 : q < 5 := by omega
  interval_cases q
  · have hends := ends_of_byte (l := 16777215) (y := (b.toNat * 256 + c.toNat) * 256 + d.toNat) (v := v) (w := 0) hm
      (by omega) (hv.symm.trans (by ring)) ⟨(hbyte a).1, (hbyte a).2.1⟩ (hbyte a).2.2
    rw [hsize 24 16777215 rfl (by omega)]
    simp only [Nat.reduceAdd] at hends ⊢
    simp [List.mapIdx_cons, value_four]
    refine ⟨Eq.trans ?_ hends.1, hends.2.1.trans_eq ?_, Eq.trans_le ?_ hends.2.2⟩ <;> ring
  · have hends := ends_of_byte (l := 65535) (y := c.toNat * 256 + d.toNat) (v := v) (w := a.toNat) hm
      (by omega) (hv.symm.trans (by ring)) ⟨(hbyte b).1, (hbyte b).2.1⟩ (hbyte b).2.2
    rw [hsize 16 65535 rfl (by omega)]
    simp only [Nat.reduceAdd] at hends ⊢
    simp [List.mapIdx_cons, value_four]
    refine ⟨Eq.trans ?_ hends.1, hends.2.1.trans_eq ?_, Eq.trans_le ?_ hends.2.2⟩ <;> ring
  · have hends := ends_of_byte (l := 255) (y := d.toNat) (v := v) (w := a.toNat * 256 + b.toNat) hm
      (by omega) (hv.symm.trans (by ring)) ⟨(hbyte c).1, (hbyte c).2.1⟩ (hbyte c).2.2
    rw [hsize 8 255 rfl (by omega)]
    simp only [Nat.reduceAdd] at hends ⊢
    simp [List.mapIdx_cons, value_four]
    refine ⟨Eq.trans ?_ hends.1, hends.2.1.trans_eq ?_, Eq.trans_le ?_ hends.2.2⟩ <;> ring
  · have hends := ends_of_byte (l := 0) (y := 0) (v := v) (w := (a.toNat * 256 + b.toNat) * 256 + c.toNat) hm
      (by omega) (hv.symm.trans (by ring)) ⟨(hbyte d).1, (hbyte d).2.1⟩ (hbyte d).2.2
    rw [hsize 0 0 rfl (by omega)]
    simpa [List.mapIdx_cons, value_four] using hends
  · obtain rfl : bits = 32 := by omega
    obtain rfl : r = 0 := by omega
    simp [List.mapIdx_cons, value_four]
    omega

/-! ### The scan -/

/-- An address of the prefix that a client may have. -/
structure Prefix.IsHost (p : Prefix) (gateway ip : List UInt8) : Prop where
  inside : p.contains ip = true
  not_first : value ip ≠ p.first
  not_last : value ip ≠ p.last
  not_gateway : ip ≠ gateway

/-- The scan goes from the one end of the range to the other: its ends differ, and it does not start at 0.0.0.0, where
`nextIP` stays; or both ends are 0.0.0.0 and there is nothing to scan. -/
def Prefix.scannable (p : Prefix) : Bool := (networkAddr p == broadcastAddr p) == (networkAddr p == [0, 0, 0, 0])

theorem edge_iff {ip : List UInt8} {p : Prefix} :
    isNetworkOrBroadcast ip p = true ↔ ip = networkAddr p ∨ ip = broadcastAddr p := by
  simp [isNetworkOrBroadcast]

namespace PoolAllocator

/-- What the scan stops at. -/
structure Stops (pa : PoolAllocator) (mac : Str) (ip : List UInt8) : Prop where
  length : ip.length = 4
  edge : isNetworkOrBroadcast ip pa.pool.subnet = false
  usable : pa.usable ip mac = true
  gateway : ip ≠ pa.pool.gateway

variable {pa pa' : PoolAllocator} {mac : Str} {ip stop found : List UInt8} {fuel : ℕ}

theorem search_stops (h : pa.search mac stop fuel ip = some (some found)) (hlen : ip.length = 4) : pa.Stops mac found := by
  induction fuel generalizing ip with
  | zero => cases h
  | succ fuel ih =>
    rw [search] at h
    split at h
    · cases h
    split at h
    · exact ih h ((length_nextIP ip).trans hlen)
    · next hgo =>
      obtain rfl : ip = found := Option.some.inj (Option.some.inj h)
      simp only [Bool.or_eq_true, Bool.not_eq_true', not_or, Bool.not_eq_true, Bool.not_eq_false, beq_iff_eq] at hgo
      exact ⟨hlen, hgo.1.1, hgo.1.2, hgo.2⟩

/-- From an address of the range the scan comes to its end, what it stops at lies in between, and it stops unless there is
nothing to stop at. -/
theorem search_between (pa : PoolAllocator) (mac : Str) (fuel : ℕ) (hlen : ip.length = 4) (hstop : stop.length = 4)
    (hpos : value ip ≠ 0) (hle : value ip ≤ value stop) (hfuel : value stop < value ip + fuel) :
    ∃ r, pa.search mac stop fuel ip = some r ∧
      (∀ found, r = some found → value ip ≤ value found ∧ value found < value stop) ∧
      (r = none → ∀ x, x.length = 4 → value ip ≤ value x → value x < value stop →
        isNetworkOrBroadcast x pa.pool.subnet = true ∨ pa.usable x mac = false ∨ x = pa.pool.gateway) := by
  induction fuel generalizing ip with
  | zero => omega
  | succ fuel ih =>
    rw [search]
    by_cases heq : ip = stop
    · subst heq
      exact ⟨none, by rw [if_pos rfl], by simp, fun _ x _ hlo hhi => absurd hhi (not_lt.2 hlo)⟩
    have hlt : value ip < value stop := lt_of_le_of_ne hle (fun h => heq (value_inj hlen hstop h))
    rw [if_neg heq]
    split
    · next hskip =>
      have hnext : value (nextIP ip) = value ip + 1 := by
        rw [value_nextIP hlen hpos, Nat.mod_eq_of_lt]
        have := value_lt hstop
        omega
      obtain ⟨r, hr, hfound, hnone⟩ := ih ((length_nextIP ip).trans hlen) (by omega) (by omega) (by omega)
      refine ⟨r, hr, fun found h => ?_, fun h x hx hlo hhi => ?_⟩
      · have := hfound found h
        omega
      · by_cases hxip : value x = value ip
        · obtain rfl := value_inj hx hlen hxip
          simpa [or_assoc] using hskip
        · exact hnone h x hx (by omega) hhi
    · refine ⟨some ip, rfl, fun found h => ?_, by simp⟩
      cases h
      omega

/-- Past the end of the range the scan never comes to it: it goes on to the last address of all, to 0.0.0.0, and stays. -/
theorem search_past (hlen : ip.length = 4) (hstop : value stop ≠ 0) (hip : value stop < value ip ∨ value ip = 0)
    {r : Option (List UInt8)} (h : pa.search mac stop fuel ip = some r) :
    ∃ found, r = some found ∧ (value stop < value found ∨ value found = 0) := by
  induction fuel generalizing ip with
  | zero => cases h
  | succ fuel ih =>
    have hne : ip ≠ stop := by
      rintro rfl
      omega
    rw [search, if_neg hne] at h
    split at h
    · refine ih ((length_nextIP ip).trans hlen) ?_ h
      by_cases h0 : value ip = 0
      · rw [nextIP_zero hlen h0]
        exact .inr h0
      · have hlt := value_lt hlen
        rw [value_nextIP hlen h0]
        by_cases hmax : value ip + 1 = 2 ^ 32
        · exact .inr (by rw [hmax, Nat.mod_self])
        · rw [Nat.mod_eq_of_lt (by omega)]
          omega
    · obtain rfl := Option.some.inj h
      exact ⟨ip, rfl, hip⟩

/-- At 0.0.0.0, when that is `networkAddr`, the scan does not move. -/
theorem search_stuck (hzero : value ip = 0) (hlen : ip.length = 4) (hne : ip ≠ stop) (hedge : ip = networkAddr pa.pool.subnet) :
    pa.search mac stop fuel ip = none := by
  induction fuel with
  | zero => rfl
  | succ fuel ih =>
    rw [search, if_neg hne, edge_iff.2 (.inl hedge), Bool.true_or, Bool.true_or, if_pos rfl, nextIP_zero hlen hzero]
    exact ih

theorem networkAddr_zero {p : Prefix} : networkAddr p = [0, 0, 0, 0] ↔ value (networkAddr p) = 0 :=
  ⟨fun h => by rw [h]; rfl, fun h => value_inj (length_networkAddr p) rfl h⟩

/-- On a range that can be scanned the scan ends, and it stops only at a host, unless there is nothing to stop at. -/
theorem scan_hosts (hs : pa.pool.subnet.scannable = true) (mac : Str) :
    ∃ r, pa.search mac (broadcastAddr pa.pool.subnet) (2 ^ 32 + 1) (nextIP (networkAddr pa.pool.subnet)) = some r ∧
      (∀ found, r = some found → pa.pool.subnet.IsHost pa.pool.gateway found ∧
        value (networkAddr pa.pool.subnet) < value found ∧ value found < value (broadcastAddr pa.pool.subnet)) ∧
      (r = none → ∀ x, x.length = 4 → value (networkAddr pa.pool.subnet) < value x →
        value x < value (broadcastAddr pa.pool.subnet) →
        isNetworkOrBroadcast x pa.pool.subnet = true ∨ pa.usable x mac = false ∨ x = pa.pool.gateway) := by
  obtain ⟨hlast, hfirst, hle⟩ := value_ends pa.pool.subnet
  have hnet := length_networkAddr pa.pool.subnet
  have hcast := length_broadcastAddr pa.pool.subnet
  simp only [Prefix.scannable, Bool.beq_eq_decide_eq, decide_eq_decide, decide_eq_true_eq] at hs
  by_cases heq : networkAddr pa.pool.subnet = broadcastAddr pa.pool.subnet
  · have hzero := hs.1 heq
    refine ⟨none, ?_, by simp, fun _ x _ hlo hhi => ?_⟩
    · rw [search, if_pos]
      rw [← heq, hzero]
      rfl
    · rw [heq] at hlo
      omega
  · have hzero : value (networkAddr pa.pool.subnet) ≠ 0 := fun h => heq (hs.2 (networkAddr_zero.2 h))
    have hlt : value (networkAddr pa.pool.subnet) < pa.pool.subnet.last :=
      lt_of_le_of_ne hle (fun h => heq (value_inj hnet hcast (h.trans hlast.symm)))
    have hmax := value_lt hcast
    have hstart : value (nextIP (networkAddr pa.pool.subnet)) = value (networkAddr pa.pool.subnet) + 1 := by
      rw [value_nextIP hnet hzero, Nat.mod_eq_of_lt (by omega)]
    have hstartLen := (length_nextIP _).trans hnet
    obtain ⟨r, hr, hfound, hnone⟩ := search_between pa mac (2 ^ 32 + 1) hstartLen hcast (by omega) (by omega) (by omega)
    refine ⟨r, hr, fun found h => ?_, fun h x hx hlo hhi => hnone h x hx (by omega) hhi⟩
    subst h
    have hstops := search_stops hr hstartLen
    have hbetween := hfound found rfl
    exact ⟨⟨Prefix.contains_iff.2 ⟨hstops.length, by omega, by omega⟩, by omega, by omega, hstops.gateway⟩, by omega, by omega⟩

/-- On any other range it does not end, however long it goes on, or it ends at an address that is no host of the prefix. -/
theorem scan_astray (hs : pa.pool.subnet.scannable = false) {r : Option (List UInt8)}
    (h : pa.search mac (broadcastAddr pa.pool.subnet) fuel (nextIP (networkAddr pa.pool.subnet)) = some r) :
    ∃ found, r = some found ∧ ¬ pa.pool.subnet.IsHost pa.pool.gateway found := by
  obtain ⟨hlast, hfirst, hle⟩ := value_ends pa.pool.subnet
  have hnet := length_networkAddr pa.pool.subnet
  have hcast := length_broadcastAddr pa.pool.subnet
  by_cases hzero : value (networkAddr pa.pool.subnet) = 0
  · have hne : networkAddr pa.pool.subnet ≠ broadcastAddr pa.pool.subnet := by
      intro heq
      simp [Prefix.scannable, ← heq, networkAddr_zero.2 hzero] at hs
    rw [nextIP_zero hnet hzero, search_stuck hzero hnet hne rfl] at h
    cases h
  · have heq : networkAddr pa.pool.subnet = broadcastAddr pa.pool.subnet := by
      by_contra hne
      have hno : networkAddr pa.pool.subnet ≠ [0, 0, 0, 0] := fun h => hzero (networkAddr_zero.1 h)
      simp [Prefix.scannable, hne, hno] at hs
    have hmax := value_lt hnet
    have hstart : value (broadcastAddr pa.pool.subnet) < value (nextIP (networkAddr pa.pool.subnet)) ∨
        value (nextIP (networkAddr pa.pool.subnet)) = 0 := by
      rw [value_nextIP hnet hzero, ← heq]
      by_cases hwrap : value (networkAddr pa.pool.subnet) + 1 = 2 ^ 32
      · exact .inr (by rw [hwrap, Nat.mod_self])
      · rw [Nat.mod_eq_of_lt (by omega)]
        omega
    obtain ⟨found, hr, hfound⟩ := search_past ((length_nextIP _).trans hnet) (heq ▸ hzero) hstart h
    refine ⟨found, hr, fun hhost => ?_⟩
    have hin := Prefix.contains_iff.1 hhost.inside
    have := hhost.not_first
    omega

end PoolAllocator

end Velora.Dhcp
