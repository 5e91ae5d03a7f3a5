import Velora.Lib.Text

/-!
# Domain names in presentation form

The functions of `github.com/miekg/dns` on names that the program calls, on the names as it holds them:
text with labels separated by dots, where a backslash escapes the character after it. A dot is a label
boundary only when the run of backslashes before it has even length.
-/

namespace Velora.Wire

open Velora.Lib Velora.Lib.Text

/-- The root name. -/
def root : Str := ['.']

/-- `IsFqdn`: the name ends in a dot that is not escaped. -/
def isFqdn (s : Str) : Bool :=
  match s.reverse with
  | '.' :: r => (r.takeWhile (· == '\\')).length % 2 == 0
  | _ => false

/-- `Fqdn`. -/
def fqdn (s : Str) : Str := if isFqdn s then s else s ++ ['.']

/-- `CanonicalName`: fully qualified and in lower case. -/
def canonicalName (s : Str) : Str := lower (fqdn s)

/-- The labels of a name without its final dot; `esc` says that the next character is escaped. -/
def labelsOf (esc : Bool) : Str → List Str
  | [] => [[]]
  | c :: cs =>
    if c = '.' ∧ esc = false then [] :: labelsOf false cs
    else
      match labelsOf (c == '\\' && !esc) cs with
      | l :: ls => (c :: l) :: ls
      | [] => [[c]]

/-- The name without the final dot that makes it fully qualified. -/
def withoutRoot (s : Str) : Str := if isFqdn s then s.dropLast else s

/-- `SplitDomainName`: the labels of a name, none for the root. -/
def splitDomainName (s : Str) : List Str :=
  if s = [] ∨ s = root then [] else labelsOf false (withoutRoot s)

/-- `CountLabel`. -/
def countLabel (s : Str) : ℕ := if s = root then 0 else (labelsOf false (withoutRoot s)).length

/-- `strings.Join(labels, ".") + "."`. -/
def joinLabels (ls : List Str) : Str := List.intercalate ['.'] ls ++ ['.']

/-- `IsSubDomain`: the labels of `parent` end the labels of `child`. -/
def isSubDomain (parent child : Str) : Bool :=
  ((splitDomainName parent).map lower).isSuffixOf ((splitDomainName child).map lower)

example : splitDomainName "a\\.b.example.".toList = ["a\\.b".toList, "example".toList] := by decide

/-! ### The canonical order

The order of RFC 4034, section 6.1: names are compared label by label from the right, and labels as the strings of
their octets in lower case. -/

/-- The octets of a label, its escapes read; the first argument holds the digits of an escape begun. -/
def octets : Option Str → Str → List ℕ
  | none, [] => []
  | some ds, [] => ds.map Char.toNat
  | none, c :: cs => if c = '\\' then octets (some []) cs else c.toNat :: octets none cs
  | some ds, c :: cs =>
    if c.isDigit && ds.length == 2 then Nat.ofDigitChars 10 (ds ++ [c]) 0 :: octets none cs
    else if c.isDigit then octets (some (ds ++ [c])) cs
    else if ds = [] then c.toNat :: octets none cs
    else ds.map Char.toNat ++ (if c = '\\' then octets (some []) cs else c.toNat :: octets none cs)

def lowerOctet (n : ℕ) : ℕ := if 65 ≤ n ∧ n ≤ 90 then n + 32 else n

/-- What names are compared by: the labels from the right, each as its lower-cased octets. -/
def canonicalKey (labels : List Str) : List (List ℕ) :=
  (labels.map (fun l => (octets none l).map lowerOctet)).reverse

example : canonicalKey ["a\\.B".toList, "c".toList] = [[99], [97, 46, 98]] := by decide

end Velora.Wire
