import Velora.Lib.Ip

/-!
# Hardware addresses in text

`net.ParseMAC` reads a hardware address of 6, 8 or 20 bytes with digits of either case, in pairs between colons or dashes or
in fours between dots. `HardwareAddr.String` writes one of these spellings, from which the address is read back.
-/

namespace Velora.Lib.Mac

open Velora.Lib.Text Velora.Lib.Ip

/-! ### Reading -/

/-- `xtoi2` of two digits. -/
def xtoi2 (a b : Char) : Option UInt8 :=
  match hexDigit a, hexDigit b with
  | some h, some l => some (UInt8.ofNat (h * 16 + l))
  | _, _ => none

/-- The bytes of a text of pairs. -/
def pairs (e : Char) : Str → Option (List UInt8)
  | [a, b] => (xtoi2 a b).map (fun x => [x])
  | a :: b :: c :: rest =>
    if c = e then
      match xtoi2 a b, pairs e rest with
      | some x, some xs => some (x :: xs)
      | _, _ => none
    else none
  | _ => none

/-- The bytes of a text of fours between dots. -/
def quads : Str → Option (List UInt8)
  | [a, b, c, d] =>
    match xtoi2 a b, xtoi2 c d with
    | some x, some y => some [x, y]
    | _, _ => none
  | a :: b :: c :: d :: e :: rest =>
    if e = '.' then
      match xtoi2 a b, xtoi2 c d, quads rest with
      | some x, some y, some xs => some (x :: y :: xs)
      | _, _, _ => none
    else none
  | _ => none

/-- `net.ParseMAC`. -/
def parseMAC (s : Str) : Option (List UInt8) :=
  if s.length < 14 then none
  else
    let hw :=
      if s[2]? = some ':' then pairs ':' s
      else if s[2]? = some '-' then pairs '-' s
      else if s[4]? = some '.' then quads s
      else none
    hw.filter (fun hw => hw.length == 6 || hw.length == 8 || hw.length == 20)

/-- `HardwareAddr.String`. -/
def hardwareString (hw : List UInt8) : Str :=
  List.intercalate [':'] (hw.map (fun b => [Nat.digitChar (b.toNat / 16), Nat.digitChar (b.toNat % 16)]))

example : parseMAC "02:00:5E:10:00:0a".toList = some [2, 0, 94, 16, 0, 10] ∧
    parseMAC "02-00-5e-10-00-0A".toList = some [2, 0, 94, 16, 0, 10] ∧
    parseMAC "0200.5e10.000a".toList = some [2, 0, 94, 16, 0, 10] ∧ parseMAC "02:00-5e:10:00:0a".toList = none ∧
    hardwareString [2, 0, 94, 16, 0, 10] = "02:00:5e:10:00:0a".toList := by
  decide

/-! ### What is printed is read back -/

theorem xtoi2_digits (b : UInt8) : xtoi2 (Nat.digitChar (b.toNat / 16)) (Nat.digitChar (b.toNat % 16)) = some b := by
  have h : ∀ n : Fin 256, xtoi2 (Nat.digitChar (n.val / 16)) (Nat.digitChar (n.val % 16)) = some (UInt8.ofNat n.val) := by
    decide +kernel
  simpa using h ⟨b.toNat, b.toNat_lt⟩

theorem hardwareString_cons (b c : UInt8) (hw : List UInt8) : hardwareString (b :: c :: hw) =
    Nat.digitChar (b.toNat / 16) :: Nat.digitChar (b.toNat % 16) :: ':' :: hardwareString (c :: hw) := by
  simp [hardwareString, List.intercalate]

theorem pairs_string (b : UInt8) : ∀ hw : List UInt8, pairs ':' (hardwareString (b :: hw)) = some (b :: hw) := by
  intro hw
  induction hw generalizing b with
  | nil =>
    rw [show hardwareString [b] = [Nat.digitChar (b.toNat / 16), Nat.digitChar (b.toNat % 16)] by
      simp [hardwareString, List.intercalate], pairs, xtoi2_digits, Option.map_some]
  | cons c hw ih => rw [hardwareString_cons, pairs, if_pos rfl, xtoi2_digits, ih]

/-- Each address has its own text. -/
theorem hardwareString_inj {hw hw' : List UInt8} (h : hardwareString hw = hardwareString hw') : hw = hw' := by
  cases hw with
  | nil =>
    cases hw' with
    | nil => rfl
    | cons c hw' =>
      have hread := pairs_string c hw'
      rw [← h] at hread
      cases hread
  | cons b hw =>
    have hread := pairs_string b hw
    rw [h] at hread
    cases hw' with
    | nil => cases hread
    | cons c hw' =>
      rw [pairs_string] at hread
      exact (Option.some.inj hread).symm

theorem parseMAC_string {hw : List UInt8} (h : hw.length = 6) : parseMAC (hardwareString hw) = some hw := by
  match hw, h with
  | [a, b, c, d, e, f], _ =>
    have hread := pairs_string a [b, c, d, e, f]
    have htext : hardwareString [a, b, c, d, e, f] =
        Nat.digitChar (a.toNat / 16) :: Nat.digitChar (a.toNat % 16) :: ':' :: hardwareString [b, c, d, e, f] :=
      hardwareString_cons a b [c, d, e, f]
    have hlen : (hardwareString [a, b, c, d, e, f]).length = 17 := by simp [hardwareString, List.intercalate]
    have hcolon : (hardwareString [a, b, c, d, e, f])[2]? = some ':' := by rw [htext]; rfl
    rw [parseMAC, if_neg (by omega), if_pos hcolon, hread]
    rfl

end Velora.Lib.Mac
